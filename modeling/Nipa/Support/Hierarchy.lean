import Nipa.Support.Lists
import Mathlib.Logic.Relation

/-!
# Hierarchies of named nodes

A node lists named values and named subnodes.  A value is addressed by the
list of names on the way to it, so a hierarchy can be read either by walking
down one address (`find`) or by enumerating everything below a node
(`collect`).  The two readings agree when names are distinct, and two
hierarchies related step by step hold the same values at the same addresses.

Nodes are arbitrary, so a cyclic hierarchy is allowed: enumeration is by depth
and is defined exactly on the nodes of bounded depth.
-/

namespace Nipa.Support

/-- A node's named values and named subnodes. -/
structure Hierarchy (K N V : Type) where
  files : N → List (K × V)
  subs : N → List (K × N)

namespace Hierarchy

variable {K N V : Type}

/-- Names are distinct among a node's values and among its subnodes. -/
def Distinct (T : Hierarchy K N V) : Prop :=
  ∀ n, ((T.files n).map Prod.fst).Nodup ∧ ((T.subs n).map Prod.fst).Nodup

/-- Everything below a node, each value with its address. -/
def collect (T : Hierarchy K N V) : ℕ → N → Option (List (List K × V))
  | 0, _ => none
  | depth + 1, n =>
      match (T.subs n).mapM fun s =>
          (T.collect depth s.2).map fun l => l.map fun e => (s.1 :: e.1, e.2) with
      | none => none
      | some ls => some ((T.files n).map (fun f => ([f.1], f.2)) ++ ls.flatten)

/-- Every chain of subnodes from the node is shorter than the bound. -/
def Bounded (T : Hierarchy K N V) : ℕ → N → Prop
  | 0, _ => False
  | depth + 1, n => ∀ s ∈ T.subs n, T.Bounded depth s.2

theorem Bounded.mono {T : Hierarchy K N V} {d d' : ℕ} (hd : d ≤ d') {n : N}
    (h : T.Bounded d n) : T.Bounded d' n := by
  induction d generalizing d' n with
  | zero => exact h.elim
  | succ d ih =>
      obtain ⟨e, rfl⟩ := Nat.exists_eq_succ_of_ne_zero (by omega : d' ≠ 0)
      intro s hs
      exact ih (by omega) (h s hs)

theorem exists_collect {T : Hierarchy K N V} {d : ℕ} {n : N}
    (h : T.Bounded d n) : ∃ l, T.collect d n = some l := by
  induction d generalizing n with
  | zero => exact h.elim
  | succ d ih =>
      have hsubs : ∀ s ∈ T.subs n, ((T.collect d s.2).map fun l =>
          l.map fun e => (s.1 :: e.1, e.2)).isSome := by
        intro s hs
        obtain ⟨l, hl⟩ := ih (h s hs)
        rw [hl]
        rfl
      obtain ⟨ls, hls⟩ := mapM_isSome_of_forall hsubs
      exact ⟨_, by rw [collect, hls]⟩

section Lookup

variable [DecidableEq K]

/-- The value a node lists under a name. -/
def fileOf (T : Hierarchy K N V) (n : N) (k : K) : Option V :=
  listed (T.files n) k

/-- The subnode a node lists under a name. -/
def subOf (T : Hierarchy K N V) (n : N) (k : K) : Option N :=
  listed (T.subs n) k

/-- Walk down an address. -/
def find (T : Hierarchy K N V) : N → List K → Option V
  | _, [] => none
  | n, [k] => T.fileOf n k
  | n, k :: k' :: ks =>
      match T.subOf n k with
      | none => none
      | some m => T.find m (k' :: ks)

@[simp] theorem find_nil (T : Hierarchy K N V) (n : N) : T.find n [] = none := by
  rw [find]

@[simp] theorem find_singleton (T : Hierarchy K N V) (n : N) (k : K) :
    T.find n [k] = T.fileOf n k := by
  rw [find]

variable {ks : List K}

theorem find_cons (T : Hierarchy K N V) (n : N) (k : K) (h : ks ≠ []) :
    T.find n (k :: ks) = (T.subOf n k).bind fun m => T.find m ks := by
  obtain ⟨k', ks', rfl⟩ := List.exists_cons_of_ne_nil h
  rw [find]
  rcases T.subOf n k with _ | m
  · rfl
  · rfl

variable {T : Hierarchy K N V} {n : N}

theorem fileOf_eq_some_iff (hT : T.Distinct) {k : K} {v : V} :
    T.fileOf n k = some v ↔ (k, v) ∈ T.files n :=
  listed_eq_some_iff (hT n).1

variable {m : N}

theorem subOf_eq_some_iff (hT : T.Distinct) {k : K} : T.subOf n k = some m ↔ (k, m) ∈ T.subs n :=
  listed_eq_some_iff (hT n).2

variable {d : ℕ}

theorem mem_collect_iff (hT : T.Distinct) {l : List (List K × V)} (h : T.collect d n = some l)
    {v : V} : (ks, v) ∈ l ↔ T.find n ks = some v := by
  induction d generalizing n l ks with
  | zero => simp [collect] at h
  | succ d ih =>
      rw [collect] at h
      split at h
      · simp at h
      next ls hls =>
        rw [mapM_eq_some_iff] at hls
        obtain rfl := Option.some.inj h
        rw [List.mem_append, List.mem_map]
        constructor
        · rintro (⟨f, hf, heq⟩ | hmem)
          · obtain ⟨rfl, rfl⟩ := Prod.mk.inj heq
            rw [find_singleton, fileOf_eq_some_iff hT]
            exact hf
          · obtain ⟨l', hl', hin⟩ := List.mem_flatten.mp hmem
            obtain ⟨s, hs, hsl⟩ := forall₂_mem_right hls hl'
            obtain ⟨l'', hcol, rfl⟩ := Option.map_eq_some_iff.mp hsl
            obtain ⟨⟨ks', v'⟩, hin', heq⟩ := List.mem_map.mp hin
            obtain ⟨rfl, rfl⟩ := Prod.mk.inj heq
            have hfind := (ih hcol).mp hin'
            have hne : ks' ≠ [] := by
              rintro rfl
              simp at hfind
            rw [find_cons T n s.1 hne, (subOf_eq_some_iff hT).mpr hs,
              Option.bind_some]
            exact hfind
        · intro hfind
          rcases ks with _ | ⟨k, ks⟩
          · simp at hfind
          · by_cases hks : ks = []
            · subst hks
              rw [find_singleton, fileOf_eq_some_iff hT] at hfind
              exact Or.inl ⟨(k, v), hfind, rfl⟩
            · rw [find_cons T n k hks] at hfind
              obtain ⟨m, hm, hfind⟩ := Option.bind_eq_some_iff.mp hfind
              rw [subOf_eq_some_iff hT] at hm
              obtain ⟨y, hy, hym⟩ := forall₂_mem_left hls hm
              obtain ⟨l'', hcol, rfl⟩ := Option.map_eq_some_iff.mp hym
              refine Or.inr (List.mem_flatten.mpr ⟨_, hy, ?_⟩)
              exact List.mem_map.mpr ⟨(ks, v), (ih hcol).mpr hfind, rfl⟩

theorem collect_nodup (hT : T.Distinct) {l : List (List K × V)} (h : T.collect d n = some l) :
    (l.map Prod.fst).Nodup := by
  induction d generalizing n l with
  | zero => simp [collect] at h
  | succ d ih =>
      rw [collect] at h
      split at h
      · simp at h
      next ls hls =>
        rw [mapM_eq_some_iff] at hls
        obtain rfl := Option.some.inj h
        rw [List.map_append, List.nodup_append]
        refine ⟨?_, ?_, ?_⟩
        · have hmap : ((T.files n).map fun f => ([f.1], f.2)).map Prod.fst =
              ((T.files n).map Prod.fst).map fun k => [k] := by
            simp
          rw [hmap]
          exact (hT n).1.map fun a b hab => by simpa using hab
        · rw [List.map_flatten, List.nodup_flatten]
          constructor
          · intro p hp
            obtain ⟨l', hl', rfl⟩ := List.mem_map.mp hp
            obtain ⟨s, _, hsl⟩ := forall₂_mem_right hls hl'
            obtain ⟨l'', hcol, rfl⟩ := Option.map_eq_some_iff.mp hsl
            have hmap : (l''.map fun e => (s.1 :: e.1, e.2)).map Prod.fst =
                (l''.map Prod.fst).map (List.cons s.1) := by
              simp
            rw [hmap]
            exact (ih hcol).map fun a b hab => by simpa using hab
          · -- addresses below different subnodes start with different names
            have hsubs := (hT n).2
            generalize T.subs n = ss at hls hsubs
            clear h
            induction hls with
            | nil => simp
            | @cons s y ss ys hsy hrest ihs =>
                rw [List.map_cons, List.nodup_cons] at hsubs
                rw [List.map_cons, List.pairwise_cons]
                refine ⟨?_, ihs hsubs.2⟩
                intro p hp
                obtain ⟨l', hl', rfl⟩ := List.mem_map.mp hp
                obtain ⟨s', hs', hsl'⟩ := forall₂_mem_right hrest hl'
                obtain ⟨_, _, rfl⟩ := Option.map_eq_some_iff.mp hsy
                obtain ⟨_, _, rfl⟩ := Option.map_eq_some_iff.mp hsl'
                rw [List.disjoint_left]
                intro a ha ha'
                simp only [List.map_map, List.mem_map, Function.comp] at ha ha'
                obtain ⟨e, _, rfl⟩ := ha
                obtain ⟨e', _, heq⟩ := ha'
                have hname : s'.1 = s.1 := (List.cons.inj heq).1
                exact hsubs.1 (hname ▸ List.mem_map_of_mem hs')
        · intro a ha b hb hab
          subst hab
          simp only [List.map_map, List.mem_map, Function.comp] at ha
          obtain ⟨f, _, rfl⟩ := ha
          obtain ⟨e, he, heq⟩ := List.mem_map.mp hb
          obtain ⟨l', hl', hin⟩ := List.mem_flatten.mp he
          obtain ⟨s, hs, hsl⟩ := forall₂_mem_right hls hl'
          obtain ⟨l'', hcol, rfl⟩ := Option.map_eq_some_iff.mp hsl
          obtain ⟨⟨ks', v'⟩, hin', rfl⟩ := List.mem_map.mp hin
          have hnil : ks' = [] := (List.cons.inj heq).2
          subst hnil
          have hfind := (mem_collect_iff hT hcol).mp hin'
          simp at hfind

/-! ## Directories of a hierarchy -/

/-- The node at an address; the empty address is the node itself. -/
def dirAt (T : Hierarchy K N V) : N → List K → Option N
  | n, [] => some n
  | n, k :: ks =>
      match T.subOf n k with
      | none => none
      | some m => T.dirAt m ks

@[simp] theorem dirAt_nil (T : Hierarchy K N V) (n : N) : T.dirAt n [] = some n := by
  rw [dirAt]

theorem dirAt_cons (T : Hierarchy K N V) (n : N) (k : K) (ks : List K) :
    T.dirAt n (k :: ks) = (T.subOf n k).bind fun m => T.dirAt m ks := by
  rw [dirAt]
  rcases T.subOf n k with _ | m
  · rfl
  · rfl

theorem dirAt_append (T : Hierarchy K N V) (n : N) (ks ks' : List K) :
    T.dirAt n (ks ++ ks') = (T.dirAt n ks).bind fun m => T.dirAt m ks' := by
  induction ks generalizing n with
  | nil => rfl
  | cons k ks ih =>
      rw [List.cons_append, dirAt_cons, dirAt_cons]
      rcases T.subOf n k with _ | m
      · rfl
      · exact ih m

theorem dirAt_concat (T : Hierarchy K N V) (n : N) (ks : List K) (k : K) :
    T.dirAt n (ks ++ [k]) = (T.dirAt n ks).bind fun m => T.subOf m k := by
  rw [dirAt_append]
  congr 1
  funext m
  rw [dirAt_cons]
  rcases T.subOf m k with _ | m'
  · rfl
  · rfl

theorem find_concat (T : Hierarchy K N V) (n : N) (ks : List K) (k : K) :
    T.find n (ks ++ [k]) = (T.dirAt n ks).bind fun m => T.fileOf m k := by
  induction ks generalizing n with
  | nil => simp
  | cons k' ks ih =>
      rw [List.cons_append, find_cons T n k' (by simp), dirAt_cons]
      rcases T.subOf n k' with _ | m
      · rfl
      · exact ih m

theorem find_append (h : T.dirAt n ks = some m) {ks' : List K} (hks' : ks' ≠ []) :
    T.find n (ks ++ ks') = T.find m ks' := by
  obtain ⟨ls, k, rfl⟩ := (List.eq_nil_or_concat' ks').resolve_left hks'
  rw [← List.append_assoc, find_concat, find_concat, dirAt_append, h, Option.bind_some]

/-- The nodes reached by stepping down through listed subnodes. -/
def Reaches (T : Hierarchy K N V) : N → N → Prop :=
  Relation.ReflTransGen fun n m => ∃ k, (k, m) ∈ T.subs n

theorem reaches_of_dirAt (h : T.dirAt n ks = some m) : T.Reaches n m := by
  induction ks generalizing n with
  | nil =>
      obtain rfl := Option.some.inj (by simpa using h : some n = some m)
      exact Relation.ReflTransGen.refl
  | cons k ks ih =>
      rw [dirAt_cons] at h
      obtain ⟨m', hm', h⟩ := Option.bind_eq_some_iff.mp h
      exact Relation.ReflTransGen.head ⟨k, mem_of_listed hm'⟩ (ih h)

theorem exists_dirAt_of_reaches (h : T.Reaches n m)
    (hT : ∀ m, T.Reaches n m → ((T.subs m).map Prod.fst).Nodup) : ∃ ks, T.dirAt n ks = some m := by
  induction h with
  | refl => exact ⟨[], dirAt_nil T n⟩
  | @tail p q hp hstep ih =>
      obtain ⟨ks, hks⟩ := ih
      obtain ⟨k, hk⟩ := hstep
      refine ⟨ks ++ [k], ?_⟩
      rw [dirAt_concat, hks, Option.bind_some]
      exact (listed_eq_some_iff (hT p hp)).mpr hk

/-! ## Depth of a finite hierarchy -/

omit [DecidableEq K] in
theorem Bounded.reaches (h : T.Bounded d n) (hr : T.Reaches n m) : T.Bounded d m := by
  induction hr with
  | refl => exact h
  | tail _ hstep ih =>
      obtain ⟨k, hk⟩ := hstep
      rcases d with _ | d
      · exact ih.elim
      · exact (ih _ hk).mono (Nat.le_succ d)

omit [DecidableEq K] in
theorem Bounded.not_reaches_self (h : T.Bounded d n) : ∀ s ∈ T.subs n, ¬ T.Reaches s.2 n := by
  induction d with
  | zero => exact h.elim
  | succ d ih =>
      intro s hs hr
      exact ih ((h s hs).reaches hr) s hs hr

omit [DecidableEq K] in
theorem Bounded.length [DecidableEq N] (h : T.Bounded d n) {l : List N}
    (hl : ∀ m, T.Reaches n m → m ∈ l) : T.Bounded l.length n := by
  induction d generalizing n l with
  | zero => exact h.elim
  | succ d ih =>
      have hn : n ∈ l := hl n Relation.ReflTransGen.refl
      rw [← List.length_erase_add_one hn]
      intro s hs
      -- nothing below the subnode leads back, so the node itself can be left out
      refine ih (h s hs) ?_
      intro m hm
      have hne : m ≠ n := by
        rintro rfl
        exact h.not_reaches_self s hs hm
      exact (List.mem_erase_of_ne hne).mpr
        (hl m (Relation.ReflTransGen.head ⟨s.1, hs⟩ hm))

/-! ## Nodes that hold a value -/

/-- Every node strictly below holds a value at some address. -/
def Filled (T : Hierarchy K N V) (n : N) : Prop :=
  ∀ ks m, ks ≠ [] → T.dirAt n ks = some m → ∃ ks', (T.find m ks').isSome

theorem filled_iff :
    T.Filled n ↔ ∀ ks, ks ≠ [] → (T.dirAt n ks).isSome →
      ∃ ks', ks' ≠ [] ∧ (T.find n (ks ++ ks')).isSome := by
  constructor
  · intro h ks hks hdir
    obtain ⟨m, hm⟩ := Option.isSome_iff_exists.mp hdir
    obtain ⟨ks', hfind⟩ := h ks m hks hm
    have hks' : ks' ≠ [] := by
      rintro rfl
      simp at hfind
    exact ⟨ks', hks', by rwa [find_append hm hks']⟩
  · intro h ks m hks hm
    obtain ⟨ks', hks', hfind⟩ := h ks hks (by rw [hm]; rfl)
    exact ⟨ks', by rwa [find_append hm hks'] at hfind⟩

theorem Filled.sub {k : K} (h : T.Filled n) (hk : T.subOf n k = some m) : T.Filled m := by
  intro ks m' _ hm'
  refine h (k :: ks) m' (by simp) ?_
  rw [dirAt_cons, hk, Option.bind_some]
  exact hm'

theorem Filled.sub_find {k : K} (h : T.Filled n) (hk : T.subOf n k = some m) :
    ∃ ks, ks ≠ [] ∧ (T.find m ks).isSome := by
  obtain ⟨ks, hks⟩ := h [k] m (by simp) (by rw [dirAt_cons, hk, Option.bind_some, dirAt_nil])
  refine ⟨ks, ?_, hks⟩
  rintro rfl
  simp at hks

theorem dirAt_isSome_of_find {ks' : List K} (hks' : ks' ≠ []) (h : (T.find n (ks ++ ks')).isSome) :
    (T.dirAt n ks).isSome := by
  obtain ⟨ls, k, rfl⟩ := (List.eq_nil_or_concat' ks').resolve_left hks'
  rw [← List.append_assoc, find_concat, dirAt_append] at h
  obtain ⟨v, hv⟩ := Option.isSome_iff_exists.mp h
  obtain ⟨m, hm, -⟩ := Option.bind_eq_some_iff.mp hv
  obtain ⟨m', hm', -⟩ := Option.bind_eq_some_iff.mp hm
  rw [hm']
  rfl

theorem Filled.dirAt_isSome {N' V' W : Type} {T' : Hierarchy K N' V'} {φ : V → W} {φ' : V' → W}
    {n' : N'} (h : T.Filled n) (hfind : ∀ ks, (T.find n ks).map φ = (T'.find n' ks).map φ')
    (hdir : (T.dirAt n ks).isSome) : (T'.dirAt n' ks).isSome := by
  by_cases hks : ks = []
  · subst hks
    rfl
  · obtain ⟨ks', hks', hsome⟩ := filled_iff.mp h ks hks hdir
    have hmap := congrArg Option.isSome (hfind (ks ++ ks'))
    rw [Option.isSome_map, Option.isSome_map, hsome] at hmap
    exact dirAt_isSome_of_find hks' hmap.symm

/-! ## Related hierarchies -/

section Simulation

variable {N' V' W : Type}

theorem find_eq_of_sim (T : Hierarchy K N V) (T' : Hierarchy K N' V')
    (φ : V → W) (φ' : V' → W) (R : N → N' → Prop)
    (hfile : ∀ n n', R n n' → ∀ k,
      (T.fileOf n k).map φ = (T'.fileOf n' k).map φ')
    (hsub : ∀ n n', R n n' → ∀ k,
      Option.Rel R (T.subOf n k) (T'.subOf n' k))
    {n : N} {n' : N'} (h : R n n') (ks : List K) :
    (T.find n ks).map φ = (T'.find n' ks).map φ' := by
  induction ks generalizing n n' with
  | nil => simp
  | cons k ks ih =>
      by_cases hks : ks = []
      · subst hks
        rw [find_singleton, find_singleton]
        exact hfile n n' h k
      · rw [find_cons T n k hks, find_cons T' n' k hks]
        have hk := hsub n n' h k
        generalize T.subOf n k = m at hk
        generalize T'.subOf n' k = m' at hk
        rcases hk with hm | _
        · exact ih hm
        · rfl

theorem dirAt_rel_of_sim (T : Hierarchy K N V) (T' : Hierarchy K N' V')
    (R : N → N' → Prop)
    (hsub : ∀ n n', R n n' → ∀ k,
      Option.Rel R (T.subOf n k) (T'.subOf n' k))
    {n : N} {n' : N'} (h : R n n') (ks : List K) :
    Option.Rel R (T.dirAt n ks) (T'.dirAt n' ks) := by
  induction ks generalizing n n' with
  | nil =>
      rw [dirAt_nil, dirAt_nil]
      exact Option.Rel.some h
  | cons k ks ih =>
      rw [dirAt_cons, dirAt_cons]
      have hk := hsub n n' h k
      generalize T.subOf n k = m at hk
      generalize T'.subOf n' k = m' at hk
      rcases hk with hm | _
      · exact ih hm
      · exact Option.Rel.none

/-- When a relation says of two nodes that they hold related values and related
subnodes, it says that they have the same values and nodes at every address. -/
theorem rel_iff_observe (T : Hierarchy K N V) (T' : Hierarchy K N' V')
    (φ : V → W) (φ' : V' → W) (R : N → N' → Prop) (P : N → Prop) (P' : N' → Prop)
    (hP : ∀ n k m, P n → T.subOf n k = some m → P m)
    (hP' : ∀ n k m, P' n → T'.subOf n k = some m → P' m)
    (hR : ∀ n n', P n → P' n' → (R n n' ↔
      (∀ k, (T.fileOf n k).map φ = (T'.fileOf n' k).map φ') ∧
        ∀ k, Option.Rel R (T.subOf n k) (T'.subOf n' k)))
    {d : ℕ} {n : N} {n' : N'} (hb : T.Bounded d n) (hn : P n) (hn' : P' n') :
    R n n' ↔ (∀ ks, (T.find n ks).map φ = (T'.find n' ks).map φ') ∧
      ∀ ks, (T.dirAt n ks).isSome ↔ (T'.dirAt n' ks).isSome := by
  constructor
  · intro h
    have hsub : ∀ n n', R n n' ∧ P n ∧ P' n' → ∀ k,
        Option.Rel (fun n n' => R n n' ∧ P n ∧ P' n') (T.subOf n k) (T'.subOf n' k) := by
      rintro n n' ⟨h, hn, hn'⟩ k
      have hk := ((hR n n' hn hn').mp h).2 k
      rcases hm : T.subOf n k with _ | m
      · rw [hm] at hk
        rcases hm' : T'.subOf n' k with _ | m'
        · exact Option.Rel.none
        · rw [hm'] at hk
          cases hk
      · rw [hm] at hk
        rcases hm' : T'.subOf n' k with _ | m'
        · rw [hm'] at hk
          cases hk
        · rw [hm'] at hk
          cases hk with
          | some hmm => exact Option.Rel.some ⟨hmm, hP n k m hn hm, hP' n' k m' hn' hm'⟩
    constructor
    · intro ks
      exact find_eq_of_sim T T' φ φ' _ (fun n n' h => ((hR n n' h.2.1 h.2.2).mp h.1).1)
        hsub ⟨h, hn, hn'⟩ ks
    · intro ks
      have hrel := dirAt_rel_of_sim T T' _ hsub ⟨h, hn, hn'⟩ ks
      generalize T.dirAt n ks = x at hrel
      generalize T'.dirAt n' ks = y at hrel
      rcases hrel with _ | _
      · simp
      · simp
  · rintro ⟨hfind, hdir⟩
    induction d generalizing n n' with
    | zero => exact hb.elim
    | succ d ih =>
        refine (hR n n' hn hn').mpr ⟨fun k => ?_, fun k => ?_⟩
        · have hk := hfind [k]
          rwa [find_singleton, find_singleton] at hk
        · have hk := hdir [k]
          simp only [dirAt_cons, dirAt_nil] at hk
          rcases hm : T.subOf n k with _ | m
          · rcases hm' : T'.subOf n' k with _ | m'
            · exact Option.Rel.none
            · rw [hm, hm'] at hk
              simp at hk
          · rcases hm' : T'.subOf n' k with _ | m'
            · rw [hm, hm'] at hk
              simp at hk
            · refine Option.Rel.some (ih (hb _ (mem_of_listed hm)) (hP n k m hn hm)
                (hP' n' k m' hn' hm') ?_ ?_)
              · intro ks
                by_cases hks : ks = []
                · subst hks
                  simp
                · have hbelow := hfind (k :: ks)
                  rwa [find_cons _ _ _ hks, find_cons _ _ _ hks, hm, hm', Option.bind_some,
                    Option.bind_some] at hbelow
              · intro ks
                have hbelow := hdir (k :: ks)
                rwa [dirAt_cons, dirAt_cons, hm, hm', Option.bind_some,
                  Option.bind_some] at hbelow

end Simulation

end Lookup

end Hierarchy

end Nipa.Support
