import Mathlib.Algebra.Ring.Int.Defs
import Mathlib.Algebra.Ring.Nat
import Mathlib.Data.Int.Init
import Mathlib.Data.Int.Notation
import Mathlib.Logic.Function.Basic
import Mathlib.Tactic.Common
import Nipa.Support.Runs

/-!
# Snowflake ids

A node packs the clock reading, its own number and a sequence number into one
64-bit id.  Callers of `Generate` take the node's mutex, so a run interleaves
their steps in any order while at most one of them is between `Lock` and
`Unlock`.  A caller that exhausts the sequence of a millisecond reads the clock
again until it has moved on.
-/

namespace Nipa

open Support (Run)

namespace Snow

/-! ## The generator -/

def nodeBits : Int64 := 8

def stepBits : Int64 := 14

def nodeMax : Int64 := (-1 : Int64) ^^^ (-1 : Int64) <<< nodeBits

def stepMask : Int64 := (-1 : Int64) ^^^ (-1 : Int64) <<< stepBits

def timeShift : Int64 := nodeBits + stepBits

def nodeShift : Int64 := stepBits

/-- The fields of a node: the time and the sequence number of the last id, and the
node's own number. -/
structure Node where
  time : Int64
  node : Int64
  step : Int64

def errInvalidNode : String := "invalid node number"

def newNode (nodeID : Int64) : Except String Node :=
  if nodeID < 0 ∨ nodeMax < nodeID then .error errInvalidNode
  else .ok { time := 0, node := nodeID, step := 0 }

/-- The id of a clock reading, a node number and a sequence number. -/
def pack (now node step : Int64) : Int64 :=
  now <<< timeShift ||| node <<< nodeShift ||| step

/-- Where a caller stands in `Generate`. -/
inductive Phase where
  | outside
  /-- Blocked in `n.mu.Lock()`. -/
  | waiting
  /-- Holds the mutex, before its first clock reading. -/
  | locked
  /-- In the loop that waits for the next millisecond. -/
  | spinning
  /-- The reading that goes into the id is made and the sequence number is set. -/
  | ready (now : Int64)
  deriving DecidableEq

/-- A node, its callers, the clock readings made so far and the ids returned so far,
in the order of their calls' `Unlock`. -/
structure Host (Caller : Type) where
  node : Node
  holder : Option Caller
  phase : Caller → Phase
  readings : List Int64
  issued : List Int64

inductive Event (Caller : Type) where
  | call (c : Caller)
  | lock (c : Caller)
  | read (c : Caller) (now : Int64)
  | unlock (c : Caller)

variable {Caller : Type}

namespace Host

def start (n : Node) : Host Caller where
  node := n
  holder := none
  phase := fun _ => .outside
  readings := []
  issued := []

variable [DecidableEq Caller]

def moveTo (h : Host Caller) (c : Caller) (p : Phase) : Host Caller :=
  { h with phase := Function.update h.phase c p }

/-- The first reading of a call. -/
def firstRead (h : Host Caller) (c : Caller) (now : Int64) : Host Caller :=
  if now = h.node.time then
    let step := (h.node.step + 1) &&& stepMask
    { h.moveTo c (if step = 0 then .spinning else .ready now) with
      node := { h.node with step := step } }
  else { h.moveTo c (.ready now) with node := { h.node with step := 0 } }

/-- One more reading of the loop that waits for the next millisecond. -/
def spinRead (h : Host Caller) (c : Caller) (now : Int64) : Host Caller :=
  if now ≤ h.node.time then h else h.moveTo c (.ready now)

/-- One step of one caller. -/
def step (h : Host Caller) : Event Caller → Option (Host Caller)
  | .call c => if h.phase c = .outside then some (h.moveTo c .waiting) else none
  | .lock c =>
      if h.phase c = .waiting ∧ h.holder = none then
        some { h.moveTo c .locked with holder := some c }
      else none
  | .read c now =>
      match h.phase c with
      | .locked => some { h.firstRead c now with readings := now :: h.readings }
      | .spinning => some { h.spinRead c now with readings := now :: h.readings }
      | _ => none
  | .unlock c =>
      match h.phase c with
      | .ready now =>
          some { h.moveTo c .outside with
            node := { h.node with time := now }
            holder := none
            issued := h.issued ++ [pack now h.node.node h.node.step] }
      | _ => none

end Host

/-- A reading less than 2^41 milliseconds from the epoch. -/
def InRange (now : Int64) : Prop :=
  -2 ^ 41 < now.toInt ∧ now.toInt < 2 ^ 41

instance (now : Int64) : Decidable (InRange now) := inferInstanceAs (Decidable (_ ∧ _))

/-- The clock is in range and does not go back. -/
def Steady (h : Host Caller) : Event Caller → Prop
  | .read _ now => InRange now ∧ ∀ r ∈ h.readings, r ≤ now
  | _ => True

/-- Runs of a node on a steady clock. -/
abbrev HostRun [DecidableEq Caller] (h h' : Host Caller) : Prop :=
  Run (fun s e s' => Host.step s e = some s') Steady h h'

/-! ## The bits of an id -/

theorem shiftLeft_or {x y : BitVec 64} {k : ℕ} (hy : y.toNat < 2 ^ k) :
    x <<< k ||| y = x <<< k + y := by
  refine (BitVec.add_eq_or_of_and_eq_zero _ _ ?_).symm
  ext i hi
  simp only [BitVec.getElem_and, BitVec.getElem_shiftLeft, BitVec.getElem_zero]
  by_cases hik : i < k
  · simp [hik]
  · have hle : 2 ^ k ≤ 2 ^ i := Nat.pow_le_pow_right (by omega) (by omega)
    have hbit : y[i] = false := by
      rw [← BitVec.getLsbD_eq_getElem, BitVec.getLsbD]
      exact Nat.testBit_lt_two_pow (by omega)
    simp [hbit]

theorem natCast_toNat {x : Int64} (hx : 0 ≤ x.toInt) : (x.toBitVec.toNat : ℤ) = x.toInt := by
  have hcond := BitVec.toInt_eq_toNat_cond x.toBitVec
  rw [Int64.toInt_toBitVec] at hcond
  have hlt := x.toBitVec.isLt
  split at hcond
  · omega
  · omega

/-- The number an id stands for. -/
def code (now node step : Int64) : ℤ :=
  now.toInt * 2 ^ 22 + node.toInt * 2 ^ 14 + step.toInt

def StepRange (step : Int64) : Prop :=
  0 ≤ step.toInt ∧ step.toInt < 2 ^ 14

def NodeRange (node : Int64) : Prop :=
  0 ≤ node.toInt ∧ node.toInt < 2 ^ 8

theorem low_bits {node step : Int64} (hnode : NodeRange node) (hstep : StepRange step) :
    (node.toBitVec <<< 14 ||| step.toBitVec).toNat
      = node.toBitVec.toNat * 2 ^ 14 + step.toBitVec.toNat := by
  obtain ⟨hnode0, hnode⟩ := hnode
  obtain ⟨hstep0, hstep⟩ := hstep
  have hnodeNat := natCast_toNat hnode0
  have hstepNat := natCast_toNat hstep0
  have hshift : (node.toBitVec <<< 14).toNat = node.toBitVec.toNat * 2 ^ 14 := by
    rw [BitVec.toNat_shiftLeft, Nat.shiftLeft_eq, Nat.mod_eq_of_lt (by omega)]
  rw [shiftLeft_or (by omega), BitVec.toNat_add, hshift, Nat.mod_eq_of_lt (by omega)]

theorem toInt_pack {now node step : Int64} (hnow : InRange now) (hnode : NodeRange node)
    (hstep : StepRange step) : (pack now node step).toInt = code now node step := by
  have hlow := low_bits hnode hstep
  obtain ⟨hnode0, hnode⟩ := hnode
  obtain ⟨hstep0, hstep⟩ := hstep
  obtain ⟨hnow0, hnow⟩ := hnow
  have hnodeNat := natCast_toNat hnode0
  have hstepNat := natCast_toNat hstep0
  have hpack : (pack now node step).toBitVec
      = now.toBitVec <<< 22 + (node.toBitVec <<< 14 ||| step.toBitVec) := by
    rw [← shiftLeft_or (by omega), ← BitVec.or_assoc]
    rfl
  have hlow' : (node.toBitVec <<< 14 ||| step.toBitVec).toInt
      = node.toInt * 2 ^ 14 + step.toInt := by
    rw [BitVec.toInt_eq_toNat_of_lt (by omega), hlow]
    omega
  -- the shift drops the bits that do not fit, and none of them is set
  have hnow' : now.toInt = (now.toBitVec.toNat : ℤ).bmod (2 ^ 64) := by
    rw [← Int64.toInt_toBitVec, BitVec.toInt_eq_toNat_bmod]
  have hshift : ((now.toBitVec.toNat <<< 22 : ℕ) : ℤ) = now.toBitVec.toNat * 2 ^ 22 := by
    rw [Nat.shiftLeft_eq, Int.natCast_mul]
    rfl
  have hcongr : (now.toInt * 2 ^ 22).bmod (2 ^ 64)
      = ((now.toBitVec.toNat : ℤ) * 2 ^ 22).bmod (2 ^ 64) := by
    rw [hnow', Int.bmod_mul_bmod]
  rw [← Int64.toInt_toBitVec, hpack, BitVec.toInt_add, BitVec.toInt_shiftLeft, hlow', hshift,
    ← hcongr, Int.bmod_add_bmod, ← Int.add_assoc]
  exact Int.bmod_eq_of_le_mul_two (by omega) (by omega)

theorem toInt_nextStep {step : Int64} (hstep : StepRange step) :
    ((step + 1) &&& stepMask).toInt
      = if step.toInt + 1 = 2 ^ 14 then 0 else step.toInt + 1 := by
  obtain ⟨hstep0, hstep⟩ := hstep
  have hnat := natCast_toNat hstep0
  have hmask : stepMask.toBitVec.toNat = 2 ^ 14 - 1 := by decide
  have hnext : ((step + 1) &&& stepMask).toBitVec.toNat = (step.toBitVec.toNat + 1) % 2 ^ 14 := by
    rw [Int64.toBitVec_and, BitVec.toNat_and, hmask, Nat.and_two_pow_sub_one_eq_mod,
      Int64.toBitVec_add, BitVec.toNat_add]
    change (step.toBitVec.toNat + 1) % 2 ^ 64 % 2 ^ 14 = _
    exact Nat.mod_mod_of_dvd _ (Nat.pow_dvd_pow 2 (by omega))
  rw [← Int64.toInt_toBitVec, BitVec.toInt_eq_toNat_of_lt (by omega), hnext]
  split
  · omega
  · omega

theorem nodeRange_of_newNode {nodeID : Int64} {n : Node} (h : newNode nodeID = .ok n) :
    NodeRange nodeID ∧ n = { time := 0, node := nodeID, step := 0 } := by
  unfold newNode at h
  split at h
  · cases h
  case isFalse hvalid =>
      have hmax : nodeMax.toInt = 255 := by decide
      have hzero : (0 : Int64).toInt = 0 := by decide
      rw [Int64.lt_iff_toInt_lt, Int64.lt_iff_toInt_lt, hmax, hzero] at hvalid
      exact ⟨⟨by omega, by omega⟩, (Except.ok.inj h).symm⟩

/-! ## What every step keeps -/

theorem inRange_zero : InRange 0 := by decide

theorem stepRange_zero : StepRange 0 := ⟨by decide, by decide⟩

theorem stepRange_nextStep {step : Int64} (hstep : StepRange step) :
    StepRange ((step + 1) &&& stepMask) := by
  have hnext := toInt_nextStep hstep
  obtain ⟨hstep0, hstep⟩ := hstep
  unfold StepRange
  rw [hnext]
  split
  · omega
  · omega

/-- The caller is between `Lock` and `Unlock`. -/
def Phase.inside : Phase → Prop
  | .outside => False
  | .waiting => False
  | _ => True

/-- Where the holder of the mutex stands. -/
def Host.stage (h : Host Caller) : Phase :=
  match h.holder with
  | none => .outside
  | some c => h.phase c

/-- A bound above all ids issued so far, while the holder of the mutex is at `p`. -/
def Host.limit (h : Host Caller) : Phase → ℤ
  | .spinning => (h.node.time.toInt + 1) * 2 ^ 22
  | .ready now => code now h.node.node h.node.step
  | _ => code h.node.time h.node.node h.node.step + 1

/-- What holds between any two steps of a node with number `nodeID`. -/
structure Host.Inv (nodeID : Int64) (h : Host Caller) : Prop where
  node_eq : h.node.node = nodeID
  node_range : NodeRange nodeID
  step_range : StepRange h.node.step
  time_range : InRange h.node.time
  time_read : h.issued ≠ [] → h.node.time ∈ h.readings
  readings_range : ∀ r ∈ h.readings, InRange r
  inside_iff : ∀ c, (h.phase c).inside ↔ h.holder = some c
  ready_read : ∀ c now, h.phase c = .ready now → now ∈ h.readings
  packed : ∀ x ∈ h.issued, ∃ now step, InRange now ∧ StepRange step ∧ x = pack now nodeID step
  below : ∀ x ∈ h.issued, x.toInt < h.limit h.stage
  increasing : h.issued.Pairwise (· < ·)

namespace Host

variable {nodeID : Int64} {h h' : Host Caller} {c : Caller} {now : Int64}

theorem start_inv {n : Node} (hnew : newNode nodeID = .ok n) :
    (Host.start n : Host Caller).Inv nodeID := by
  obtain ⟨hrange, hn⟩ := nodeRange_of_newNode hnew
  subst hn
  exact
    { node_eq := rfl
      node_range := hrange
      step_range := stepRange_zero
      time_range := inRange_zero
      time_read := fun hne => absurd rfl hne
      readings_range := fun r hr => by cases hr
      inside_iff := fun c => ⟨fun hc => hc.elim, fun hc => by cases hc⟩
      ready_read := fun c now hc => by cases hc
      packed := fun x hx => by cases hx
      below := fun x hx => by cases hx
      increasing := List.Pairwise.nil }

theorem Inv.stage_eq (hinv : h.Inv nodeID) (hc : (h.phase c).inside) : h.stage = h.phase c := by
  unfold stage
  rw [(hinv.inside_iff c).mp hc]

variable [DecidableEq Caller]

@[simp] theorem moveTo_phase_self (p : Phase) : (h.moveTo c p).phase c = p := by
  simp [moveTo]

theorem moveTo_phase_of_ne {d : Caller} {p : Phase} (hne : d ≠ c) :
    (h.moveTo c p).phase d = h.phase d := by
  simp [moveTo, hne]

theorem call_inv (hinv : h.Inv nodeID) (hstep : h.step (.call c) = some h') :
    h'.Inv nodeID := by
  simp only [step] at hstep
  split at hstep
  case isFalse => cases hstep
  case isTrue hout =>
      cases hstep
      have hfree : h.holder ≠ some c := by
        rw [Ne, ← hinv.inside_iff c, hout]
        exact id
      have hstage : (h.moveTo c .waiting).stage = h.stage := by
        unfold stage
        cases hholder : h.holder with
        | none => simp [moveTo, hholder]
        | some d =>
            have hne : d ≠ c := fun heq => hfree (heq ▸ hholder)
            simpa [moveTo, hholder] using moveTo_phase_of_ne hne
      exact
        { hinv with
          inside_iff := by
            intro d
            by_cases hd : d = c
            · subst hd
              simpa [Phase.inside, moveTo] using hfree
            · rw [moveTo_phase_of_ne hd]
              exact hinv.inside_iff d
          ready_read := by
            intro d now hd
            by_cases hdc : d = c
            · subst hdc
              simp at hd
            · exact hinv.ready_read d now ((moveTo_phase_of_ne hdc).symm.trans hd)
          below := by
            intro x hx
            rw [hstage]
            exact hinv.below x hx }

theorem lock_inv (hinv : h.Inv nodeID) (hstep : h.step (.lock c) = some h') :
    h'.Inv nodeID := by
  simp only [step] at hstep
  split at hstep
  case isFalse => cases hstep
  case isTrue hfree =>
      obtain ⟨hwait, hnone⟩ := hfree
      cases hstep
      exact
        { hinv with
          inside_iff := by
            intro d
            by_cases hd : d = c
            · subst hd
              simp [Phase.inside]
            · have hout := hinv.inside_iff d
              rw [hnone] at hout
              simpa [moveTo_phase_of_ne hd, Ne.symm hd] using hout
          ready_read := by
            intro d now hd
            by_cases hdc : d = c
            · subst hdc
              simp at hd
            · exact hinv.ready_read d now ((moveTo_phase_of_ne hdc).symm.trans hd)
          below := by
            intro x hx
            have hbelow := hinv.below x hx
            unfold stage at hbelow
            rw [hnone] at hbelow
            simpa [stage, limit, moveTo] using hbelow }

theorem Inv.of_held (hinv : h.Inv nodeID) (hheld : h.holder = some c) {p : Phase}
    {step now : Int64} (hp : p.inside) (hstep : StepRange step) (hnow : InRange now)
    (hready : ∀ t, p = .ready t → t ∈ now :: h.readings)
    (hbelow : ∀ x ∈ h.issued,
      x.toInt < ({ h with node := { h.node with step := step } } : Host Caller).limit p) :
    ({ h.moveTo c p with
        node := { h.node with step := step }
        readings := now :: h.readings } : Host Caller).Inv nodeID where
  node_eq := hinv.node_eq
  node_range := hinv.node_range
  step_range := hstep
  time_range := hinv.time_range
  time_read := fun hne => List.mem_cons_of_mem now (hinv.time_read hne)
  readings_range := by
    intro r hr
    cases List.mem_cons.mp hr with
    | inl heq => exact heq ▸ hnow
    | inr hmem => exact hinv.readings_range r hmem
  inside_iff := by
    intro d
    by_cases hd : d = c
    · subst hd
      simpa [moveTo, hheld] using hp
    · rw [moveTo_phase_of_ne hd]
      exact hinv.inside_iff d
  ready_read := by
    intro d t hd
    by_cases hdc : d = c
    · subst hdc
      exact hready t (by simpa using hd)
    · exact List.mem_cons_of_mem now
        (hinv.ready_read d t ((moveTo_phase_of_ne hdc).symm.trans hd))
  packed := hinv.packed
  below := by
    intro x hx
    have hstage : ({ h.moveTo c p with
        node := { h.node with step := step }
        readings := now :: h.readings } : Host Caller).stage = p := by
      simp [stage, moveTo, hheld]
    rw [hstage]
    cases p with
    | outside => exact hbelow x hx
    | waiting => exact hbelow x hx
    | locked => exact hbelow x hx
    | spinning => exact hbelow x hx
    | ready t => exact hbelow x hx
  increasing := hinv.increasing

theorem firstRead_inv (hinv : h.Inv nodeID) (hlocked : h.phase c = .locked)
    (hsteady : Steady h (.read c now)) :
    ({ h.firstRead c now with readings := now :: h.readings } : Host Caller).Inv nodeID := by
  obtain ⟨hnow, hlatest⟩ := hsteady
  have hinside : (h.phase c).inside := by rw [hlocked]; trivial
  have hheld := (hinv.inside_iff c).mp hinside
  have hbelow : ∀ x ∈ h.issued, x.toInt < code h.node.time h.node.node h.node.step + 1 := by
    intro x hx
    have hx := hinv.below x hx
    rwa [hinv.stage_eq hinside, hlocked] at hx
  have hready : ∀ t, Phase.ready now = .ready t → t ∈ now :: h.readings := by
    intro t ht
    cases ht
    exact List.mem_cons_self
  have hstep := hinv.step_range
  have hnode : NodeRange h.node.node := hinv.node_eq ▸ hinv.node_range
  have hnext := toInt_nextStep hstep
  unfold firstRead
  split
  case isTrue heq =>
      dsimp only
      by_cases hzero : (h.node.step + 1) &&& stepMask = 0
      · -- the sequence is used up: the next id belongs to a later millisecond
        rw [if_pos hzero]
        refine hinv.of_held hheld trivial (stepRange_nextStep hstep) hnow (fun t ht => by cases ht)
          fun x hx => ?_
        have hx := hbelow x hx
        obtain ⟨_, _⟩ := hstep
        obtain ⟨_, _⟩ := hnode
        unfold code at hx
        change x.toInt < (h.node.time.toInt + 1) * 2 ^ 22
        omega
      · rw [if_neg hzero]
        refine hinv.of_held hheld trivial (stepRange_nextStep hstep) hnow hready fun x hx => ?_
        have hx := hbelow x hx
        have hcount : ((h.node.step + 1) &&& stepMask).toInt = h.node.step.toInt + 1 := by
          rw [hnext, if_neg]
          intro hfull
          rw [if_pos hfull] at hnext
          exact hzero (Int64.toInt_inj.mp hnext)
        unfold code at hx
        change x.toInt < code now h.node.node ((h.node.step + 1) &&& stepMask)
        unfold code
        rw [hcount, heq]
        omega
  case isFalse hne =>
      refine hinv.of_held hheld trivial stepRange_zero hnow hready fun x hx => ?_
      have hread := hinv.time_read (List.ne_nil_of_mem hx)
      have hle := Int64.le_iff_toInt_le.mp (hlatest _ hread)
      have hlt : h.node.time.toInt ≠ now.toInt :=
        fun heq => hne (Int64.toInt_inj.mp heq).symm
      have hx := hbelow x hx
      obtain ⟨_, _⟩ := hstep
      obtain ⟨_, _⟩ := hnode
      unfold code at hx
      change x.toInt < code now h.node.node 0
      have hzero : (0 : Int64).toInt = 0 := by decide
      unfold code
      omega

theorem spinRead_inv (hinv : h.Inv nodeID) (hspin : h.phase c = .spinning)
    (hsteady : Steady h (.read c now)) :
    ({ h.spinRead c now with readings := now :: h.readings } : Host Caller).Inv nodeID := by
  obtain ⟨hnow, -⟩ := hsteady
  have hinside : (h.phase c).inside := by rw [hspin]; trivial
  unfold spinRead
  split
  · exact
      { hinv with
        time_read := fun hne => List.mem_cons_of_mem now (hinv.time_read hne)
        readings_range := by
          intro r hr
          cases List.mem_cons.mp hr with
          | inl heq => exact heq ▸ hnow
          | inr hmem => exact hinv.readings_range r hmem
        ready_read := fun d t hd => List.mem_cons_of_mem now (hinv.ready_read d t hd) }
  case isFalse hlater =>
      refine hinv.of_held ((hinv.inside_iff c).mp hinside) trivial hinv.step_range hnow
        (fun t ht => ?_) fun x hx => ?_
      · cases ht
        exact List.mem_cons_self
      · have hx := hinv.below x hx
        rw [hinv.stage_eq hinside, hspin] at hx
        change x.toInt < (h.node.time.toInt + 1) * 2 ^ 22 at hx
        rw [Int64.le_iff_toInt_le] at hlater
        have hnode : NodeRange h.node.node := hinv.node_eq ▸ hinv.node_range
        have hstep := hinv.step_range
        obtain ⟨_, _⟩ := hnode
        obtain ⟨_, _⟩ := hstep
        change x.toInt < code now h.node.node h.node.step
        unfold code
        omega

theorem unlock_inv (hinv : h.Inv nodeID) (hstep : h.step (.unlock c) = some h') :
    h'.Inv nodeID := by
  simp only [step] at hstep
  split at hstep
  case h_2 => cases hstep
  case h_1 now hready =>
      cases hstep
      have hinside : (h.phase c).inside := by rw [hready]; trivial
      have hread := hinv.ready_read c now hready
      have hnow := hinv.readings_range now hread
      have hnode : NodeRange h.node.node := hinv.node_eq ▸ hinv.node_range
      have hvalue := toInt_pack hnow hnode hinv.step_range
      have hbelow : ∀ x ∈ h.issued, x.toInt < code now h.node.node h.node.step := by
        intro x hx
        have hx := hinv.below x hx
        rwa [hinv.stage_eq hinside, hready] at hx
      exact
        { hinv with
          time_range := hnow
          time_read := fun _ => hread
          inside_iff := by
            intro d
            by_cases hd : d = c
            · subst hd
              simp [Phase.inside]
            · have hout := hinv.inside_iff d
              rw [(hinv.inside_iff c).mp hinside] at hout
              simpa [moveTo_phase_of_ne hd, Ne.symm hd] using hout
          ready_read := by
            intro d t hd
            by_cases hdc : d = c
            · subst hdc
              simp at hd
            · exact hinv.ready_read d t ((moveTo_phase_of_ne hdc).symm.trans hd)
          packed := by
            intro x hx
            cases List.mem_append.mp hx with
            | inl hold => exact hinv.packed x hold
            | inr hnew =>
                rw [List.mem_singleton.mp hnew, hinv.node_eq]
                exact ⟨now, h.node.step, hnow, hinv.step_range, rfl⟩
          below := by
            intro x hx
            change x.toInt < code now h.node.node h.node.step + 1
            cases List.mem_append.mp hx with
            | inl hold =>
                have hold := hbelow x hold
                omega
            | inr hnew =>
                rw [List.mem_singleton.mp hnew, hvalue]
                omega
          increasing := by
            refine List.pairwise_append.mpr ⟨hinv.increasing, List.pairwise_singleton _ _, ?_⟩
            intro x hx y hy
            rw [List.mem_singleton.mp hy, Int64.lt_iff_toInt_lt, hvalue]
            exact hbelow x hx }

theorem step_inv (hinv : h.Inv nodeID) {e : Event Caller} (hsteady : Steady h e)
    (hstep : h.step e = some h') : h'.Inv nodeID := by
  cases e with
  | call c => exact call_inv hinv hstep
  | lock c => exact lock_inv hinv hstep
  | unlock c => exact unlock_inv hinv hstep
  | read c now =>
      simp only [step] at hstep
      split at hstep
      case h_1 hlocked =>
          cases hstep
          exact firstRead_inv hinv hlocked hsteady
      case h_2 hspin =>
          cases hstep
          exact spinRead_inv hinv hspin hsteady
      case h_3 => cases hstep

theorem run_inv {n : Node} (hnew : newNode nodeID = .ok n) (hrun : HostRun (start n) h) :
    h.Inv nodeID :=
  hrun.invariant (start_inv hnew) fun _ _ _ hinv hsteady hstep => step_inv hinv hsteady hstep

end Host

/-! ## Uniqueness -/

theorem pack_ne_pack {now now' node node' step step' : Int64} (hnow : InRange now)
    (hnow' : InRange now') (hnode : NodeRange node) (hnode' : NodeRange node')
    (hstep : StepRange step) (hstep' : StepRange step') (hne : node ≠ node') :
    pack now node step ≠ pack now' node' step' := by
  intro heq
  have hcode : code now node step = code now' node' step' := by
    rw [← toInt_pack hnow hnode hstep, ← toInt_pack hnow' hnode' hstep', heq]
  have hnum : node.toInt ≠ node'.toInt := fun h => hne (Int64.toInt_inj.mp h)
  obtain ⟨_, _⟩ := hnode
  obtain ⟨_, _⟩ := hnode'
  obtain ⟨_, _⟩ := hstep
  obtain ⟨_, _⟩ := hstep'
  unfold code at hcode
  omega

/-- Whatever its callers interleave, the ids a node returns strictly increase, and no
id of a node with another number is among them. -/
theorem ids_increase_and_differ [DecidableEq Caller] {nodeID : Int64} {n : Node}
    {h : Host Caller} (hnew : newNode nodeID = .ok n) (hrun : HostRun (Host.start n) h) :
    h.issued.Pairwise (· < ·) ∧
      ∀ (Other : Type) [DecidableEq Other] (nodeID' : Int64) (n' : Node) (h' : Host Other),
        newNode nodeID' = .ok n' → HostRun (Host.start n') h' → nodeID ≠ nodeID' →
          ∀ x ∈ h.issued, ∀ y ∈ h'.issued, x ≠ y := by
  have hinv := Host.run_inv hnew hrun
  refine ⟨hinv.increasing, fun Other _ nodeID' n' h' hnew' hrun' hne x hx y hy => ?_⟩
  have hinv' := Host.run_inv hnew' hrun'
  obtain ⟨now, step, hnow, hstep, hx⟩ := hinv.packed x hx
  obtain ⟨now', step', hnow', hstep', hy⟩ := hinv'.packed y hy
  rw [hx, hy]
  exact pack_ne_pack hnow hnow' hinv.node_range hinv'.node_range hstep hstep' hne

/-- Two callers of node 1 in one millisecond, the second waiting for the mutex, and a
caller of node 2. -/
theorem ids_increase_and_differ_two_callers :
    [pack 5 1 0, pack 5 1 1].Pairwise (· < ·) ∧ pack 5 1 1 ≠ pack 5 2 0 := by
  have hfirst : HostRun (Host.start ⟨0, 1, 0⟩) _ :=
    (Run.refl _).tail (e := .call true) trivial rfl
      |>.tail (e := .lock true) trivial rfl
      |>.tail (e := .call false) trivial rfl
      |>.tail (e := .read true 5) ⟨by decide, show ∀ r ∈ ([] : List Int64), r ≤ 5 by simp⟩ rfl
      |>.tail (e := .unlock true) trivial rfl
      |>.tail (e := .lock false) trivial rfl
      |>.tail (e := .read false 5) ⟨by decide, show ∀ r ∈ ([5] : List Int64), r ≤ 5 by simp⟩ rfl
      |>.tail (e := .unlock false) trivial rfl
  have hother : HostRun (Host.start ⟨0, 2, 0⟩) _ :=
    (Run.refl _).tail (e := .call ()) trivial rfl
      |>.tail (e := .lock ()) trivial rfl
      |>.tail (e := .read () 5) ⟨by decide, show ∀ r ∈ ([] : List Int64), r ≤ 5 by simp⟩ rfl
      |>.tail (e := .unlock ()) trivial rfl
  have hids := ids_increase_and_differ (show newNode 1 = .ok _ from rfl) hfirst
  exact ⟨hids.1, hids.2 Unit 2 _ _ rfl hother (by decide) _ (by decide) _ (by decide)⟩

end Snow

end Nipa
