import Nipa.Text.LineDiff

/-!
# Edit scripts

A script from one list of lines to another keeps, removes and adds lines; it
is described by one rule for each kind of operation.  The lines of either side
and the number of edits are read off it by induction over these rules.
-/

namespace Nipa

open Support

namespace Text

/-- `ops` turns `as`, the old lines from index `i` on, into `bs`, the new lines
from index `j` on; a kept line has the old text and equals the new one. -/
inductive IsScript (equal : Line → Line → Bool) :
    ℕ → ℕ → List Line → List Line → List Op → Prop
  | nil {i j} : IsScript equal i j [] [] []
  | keep {i j s t as bs ops} : equal s t = true → IsScript equal (i + 1) (j + 1) as bs ops →
      IsScript equal i j (s :: as) (t :: bs) (⟨.equal, s, i, j⟩ :: ops)
  | remove {i j s as bs ops} : IsScript equal (i + 1) j as bs ops →
      IsScript equal i j (s :: as) bs (⟨.removed, s, i, j⟩ :: ops)
  | add {i j t as bs ops} : IsScript equal i (j + 1) as bs ops →
      IsScript equal i j as (t :: bs) (⟨.added, t, i, j⟩ :: ops)

namespace Op

/-- The operation is part of the old side: a kept or a removed line. -/
def onOld (op : Op) : Bool :=
  op.kind ≠ .added

/-- The operation is part of the new side: a kept or an added line. -/
def onNew (op : Op) : Bool :=
  op.kind ≠ .removed

/-- The operation is an edit. -/
def edits (op : Op) : Bool :=
  op.kind ≠ .equal

end Op

namespace IsScript

variable {equal : Line → Line → Bool} {i j : ℕ} {as bs : List Line} {ops : List Op}

theorem old_side (h : IsScript equal i j as bs ops) :
    (ops.filter Op.onOld).map (fun op => (op.line, op.a)) = as.zipIdx i := by
  induction h with
  | nil => rfl
  | keep _ _ ih => simpa [Op.onOld] using ih
  | remove _ ih => simpa [Op.onOld] using ih
  | add _ ih => simpa [Op.onOld] using ih

theorem new_indices (h : IsScript equal i j as bs ops) :
    (ops.filter Op.onNew).map Op.b = List.range' j bs.length := by
  induction h with
  | nil => rfl
  | keep _ _ ih => simpa [Op.onNew, List.range'_succ] using ih
  | remove _ ih => simpa [Op.onNew] using ih
  | add _ ih => simpa [Op.onNew, List.range'_succ] using ih

/-- The new side of a script is the new lines: an added line as it is, a kept
line up to the equality used. -/
theorem new_side (h : IsScript equal i j as bs ops) :
    List.Forall₂
      (fun op t => if op.kind = .added then op.line = t else equal op.line t = true)
      (ops.filter Op.onNew) bs := by
  induction h with
  | nil => exact List.Forall₂.nil
  | keep heq _ ih => exact List.Forall₂.cons heq ih
  | remove _ ih => exact ih
  | add _ ih => exact List.Forall₂.cons rfl ih

/-- With an equality that identifies only equal lines the new side is the new
lines. -/
theorem new_side_exact (h : IsScript equal i j as bs ops)
    (hexact : ∀ s t, equal s t = true → s = t) :
    (ops.filter Op.onNew).map (fun op => (op.line, op.b)) = bs.zipIdx j := by
  induction h with
  | nil => rfl
  | keep heq _ ih => simpa [Op.onNew, hexact _ _ heq] using ih
  | remove _ ih => simpa [Op.onNew] using ih
  | add _ ih => simpa [Op.onNew] using ih

theorem reach (h : IsScript equal i j as bs ops) {as₀ bs₀ pa pb : List Line}
    (ha : as₀ = pa ++ as) (hb : bs₀ = pb ++ bs) {d : ℕ}
    (hreach : Reach (Crossing (fun s t => equal s t = true) as₀ bs₀) d pa.length pb.length) :
    Reach (Crossing (fun s t => equal s t = true) as₀ bs₀) (d + ops.countP Op.edits)
      as₀.length bs₀.length := by
  induction h generalizing pa pb d with
  | nil =>
      rw [List.append_nil] at ha hb
      simpa [ha, hb] using hreach
  | @keep i j s t as bs ops heq _ ih =>
      have hcross : Crossing (fun s t => equal s t = true) as₀ bs₀ pa.length pb.length :=
        ⟨by omega, by omega, s, t, by simp [ha], by simp [hb], heq⟩
      have hnext := ih (show as₀ = pa ++ [s] ++ as by simpa using ha)
        (show bs₀ = pb ++ [t] ++ bs by simpa using hb) (by simpa using hreach.diagonal hcross)
      simpa [Op.edits] using hnext
  | @remove i j s as bs ops _ ih =>
      have hnext := ih (show as₀ = pa ++ [s] ++ as by simpa using ha) hb
        (by simpa using hreach.right)
      rw [show d + 1 + ops.countP Op.edits = d + (ops.countP Op.edits + 1) by omega] at hnext
      simpa [Op.edits] using hnext
  | @add i j t as bs ops _ ih =>
      have hnext := ih ha (show bs₀ = pb ++ [t] ++ bs by simpa using hb)
        (by simpa using hreach.down)
      rw [show d + 1 + ops.countP Op.edits = d + (ops.countP Op.edits + 1) by omega] at hnext
      simpa [Op.edits] using hnext

theorem kept_pairs (h : IsScript equal i j as bs ops) {as₀ bs₀ pa pb : List Line}
    (ha : as₀ = pa ++ as) (hb : bs₀ = pb ++ bs) (hi : i = pa.length) (hj : j = pb.length) :
    ∀ op ∈ ops, op.kind = .equal →
      ∃ t, as₀[op.a]? = some op.line ∧ bs₀[op.b]? = some t ∧ equal op.line t = true := by
  induction h generalizing pa pb with
  | nil => exact fun op hop => absurd hop (by simp)
  | @keep i j s t as bs ops heq _ ih =>
      intro op hop hkind
      rcases List.mem_cons.mp hop with rfl | hop
      · exact ⟨t, by simp [ha, hi], by simp [hb, hj], heq⟩
      · exact ih (show as₀ = pa ++ [s] ++ as by simpa using ha)
          (show bs₀ = pb ++ [t] ++ bs by simpa using hb)
          (by simp [hi]) (by simp [hj]) op hop hkind
  | @remove i j s as bs ops _ ih =>
      intro op hop hkind
      rcases List.mem_cons.mp hop with rfl | hop
      · exact absurd hkind (by simp)
      · exact ih (show as₀ = pa ++ [s] ++ as by simpa using ha) hb (by simp [hi]) hj op hop hkind
  | @add i j t as bs ops _ ih =>
      intro op hop hkind
      rcases List.mem_cons.mp hop with rfl | hop
      · exact absurd hkind (by simp)
      · exact ih ha (show bs₀ = pb ++ [t] ++ bs by simpa using hb) hi (by simp [hj]) op hop hkind

theorem reach_corner (h : IsScript equal 0 0 as bs ops) :
    Reach (Crossing (fun s t => equal s t = true) as bs) (ops.countP Op.edits)
      as.length bs.length := by
  simpa using h.reach (List.nil_append as).symm (List.nil_append bs).symm Reach.origin

end IsScript

/-! ## Building a script from its end -/

section Building

variable {a b : List Line}

theorem at?_eq_some {α : Type} {l : List α} {i : ℤ} {x : α} (h : at? l i = some x) :
    0 ≤ i ∧ i < l.length ∧ l[i.toNat]? = some x := by
  rw [at?] at h
  split at h
  next hi =>
    have hlt := (List.getElem?_eq_some_iff.mp h).1
    exact ⟨hi, by omega, h⟩
  next => exact absurd h (by simp)

theorem at?_of_lt {α : Type} {l : List α} {i : ℤ} (h : 0 ≤ i) (hlt : i < l.length) :
    ∃ x, at? l i = some x := by
  rw [at?, if_pos h]
  exact ⟨_, List.getElem?_eq_getElem (by omega)⟩

theorem drop_of_at? {l : List Line} {i : ℤ} {s : Line} (h : at? l (i - 1) = some s) :
    l.drop (i - 1).toNat = s :: l.drop i.toNat := by
  obtain ⟨hi, -, hget⟩ := at?_eq_some h
  obtain ⟨hlt, rfl⟩ := List.getElem?_eq_some_iff.mp hget
  rw [List.drop_eq_getElem_cons hlt]
  have hsucc : (i - 1).toNat + 1 = i.toNat := by omega
  rw [hsucc]

/-- `ops` is a script for what is left of both texts at `x` and `y`. -/
def Rest (equal : Line → Line → Bool) (a b : List Line) (x y : ℤ) (ops : List Op) : Prop :=
  IsScript equal x.toNat y.toNat (a.drop x.toNat) (b.drop y.toNat) ops

variable {equal : Line → Line → Bool} {x y : ℤ} {ops : List Op} {s t : Line}

theorem Rest.keep (h : Rest equal a b x y ops) (hs : at? a (x - 1) = some s)
    (ht : at? b (y - 1) = some t) (heq : equal s t = true) :
    Rest equal a b (x - 1) (y - 1) (⟨.equal, s, (x - 1).toNat, (y - 1).toNat⟩ :: ops) := by
  rw [Rest, drop_of_at? hs, drop_of_at? ht]
  refine IsScript.keep heq ?_
  have hx := (at?_eq_some hs).1
  have hy := (at?_eq_some ht).1
  rwa [show (x - 1).toNat + 1 = x.toNat by omega, show (y - 1).toNat + 1 = y.toNat by omega]

theorem Rest.remove (h : Rest equal a b x y ops) (hs : at? a (x - 1) = some s) :
    Rest equal a b (x - 1) y (⟨.removed, s, (x - 1).toNat, y.toNat⟩ :: ops) := by
  rw [Rest, drop_of_at? hs]
  refine IsScript.remove ?_
  have hx := (at?_eq_some hs).1
  rwa [show (x - 1).toNat + 1 = x.toNat by omega]

theorem Rest.add (h : Rest equal a b x y ops) (ht : at? b (y - 1) = some t) :
    Rest equal a b x (y - 1) (⟨.added, t, x.toNat, (y - 1).toNat⟩ :: ops) := by
  rw [Rest, drop_of_at? ht]
  refine IsScript.add ?_
  have hy := (at?_eq_some ht).1
  rwa [show (y - 1).toNat + 1 = y.toNat by omega]

end Building

/-! ## One side empty -/

theorem isScript_added (equal : Line → Line → Bool) (b : List Line) (j : ℕ) :
    IsScript equal 0 j [] b (b.mapIdx fun y l => ⟨.added, l, 0, j + y⟩) := by
  induction b generalizing j with
  | nil => exact IsScript.nil
  | cons t b ih =>
      rw [List.mapIdx_cons]
      refine IsScript.add ?_
      have hrest := ih (j + 1)
      simpa [add_assoc, add_comm, add_left_comm] using hrest

theorem isScript_removed (equal : Line → Line → Bool) (a : List Line) (i : ℕ) :
    IsScript equal i 0 a [] (a.mapIdx fun x l => ⟨.removed, l, i + x, 0⟩) := by
  induction a generalizing i with
  | nil => exact IsScript.nil
  | cons s a ih =>
      rw [List.mapIdx_cons]
      refine IsScript.remove ?_
      have hrest := ih (i + 1)
      simpa [add_assoc, add_comm, add_left_comm] using hrest

end Text

end Nipa
