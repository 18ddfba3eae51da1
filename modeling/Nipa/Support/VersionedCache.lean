import Nipa.Support.Runs
import Mathlib.Data.List.Basic
import Mathlib.Order.Basic
import Mathlib.Order.Defs.LinearOrder
import Mathlib.Algebra.Order.Group.Nat
import Mathlib.Logic.Function.Basic

/-!
# A cache guarded by version counters

A cache answers from what earlier calls read.  A call that finds no entry reads
the tables query by query, while other calls change them, and leaves its result
in the cache unless the version it started from has moved on.  A change first
writes the tables and then raises every version and drops all entries.

The tables are kept with their history: the state after each change has a
number, and a read remembers the number it saw.  A change that also
invalidates is settled once it has; a quiet change is settled by its write.
An answer is fresh when no query of it was read before a change that was
settled when the call began and that changes what the query returns; a quiet
change may be missed by calls that begin before an entry kept from then has
expired.
-/

namespace Nipa.Support

/-! ## States -/

/-- A query with the value it returned and the number of changes it saw. -/
structure CacheRead (W R : Type) where
  query : W → R
  value : R
  seen : ℕ

structure CacheEntry (W R : Type) where
  expires : ℕ
  version : ℕ
  reads : List (CacheRead W R)

/-- A settled change, when it was settled, and whether it was quiet. -/
structure Settled where
  change : ℕ
  time : ℕ
  quiet : Bool

/-- How far a call has come.  A call remembers when it began and what was settled
then. -/
inductive CacheCall (W R K : Type) where
  | started (key : K) (now : ℕ) (settled : List Settled)
  | loading (key : K) (now : ℕ) (settled : List Settled) (version : ℕ)
      (reads : List (CacheRead W R))
  | answered (key : K) (now : ℕ) (settled : List Settled) (reads : List (CacheRead W R))
  | invalidating (change : ℕ)

structure CacheState (W R K G : Type) where
  worlds : ℕ → W
  written : ℕ
  settled : List Settled
  clock : ℕ
  versions : G → Option ℕ
  cache : K → Option (CacheEntry W R)
  calls : ℕ → Option (CacheCall W R K)

/-- What a load of a key queries after the values so far, the counter a key belongs
to, and how long an entry lives. -/
structure CacheSpec (W R K G : Type) where
  next : K → List R → Option (W → R)
  group : K → G
  ttl : ℕ

variable {W R K G : Type}

namespace CacheState

def world (s : CacheState W R K G) : W :=
  s.worlds s.written

def version (s : CacheState W R K G) (g : G) : ℕ :=
  (s.versions g).getD 0

def setCall (s : CacheState W R K G) (i : ℕ) (c : Option (CacheCall W R K)) :
    CacheState W R K G :=
  { s with calls := Function.update s.calls i c }

@[simp] theorem setCall_calls_self (s : CacheState W R K G) (i : ℕ)
    (c : Option (CacheCall W R K)) : (s.setCall i c).calls i = c := by
  simp [setCall]

/-- A counter exists from its first use on. -/
def register [DecidableEq G] (s : CacheState W R K G) (g : G) : CacheState W R K G :=
  { s with versions := Function.update s.versions g (some (s.version g)) }

def put [DecidableEq K] (s : CacheState W R K G) (key : K) (e : CacheEntry W R) :
    CacheState W R K G :=
  { s with cache := Function.update s.cache key (some e) }

/-- Raise every version and drop every entry. -/
def invalidateAll (s : CacheState W R K G) : CacheState W R K G :=
  { s with
    versions := fun g => (s.versions g).map (· + 1)
    cache := fun _ => none }

def write (s : CacheState W R K G) (w : W) : CacheState W R K G :=
  { s with
    worlds := Function.update s.worlds (s.written + 1) w
    written := s.written + 1 }

def settle (s : CacheState W R K G) (change : ℕ) (quiet : Bool) : CacheState W R K G :=
  { s with settled := ⟨change, s.clock, quiet⟩ :: s.settled }

/-- The entry a call that began at `now` may answer from. -/
def usable (s : CacheState W R K G) (spec : CacheSpec W R K G) (key : K) (now : ℕ)
    (e : CacheEntry W R) : Prop :=
  s.cache key = some e ∧ e.version = s.version (spec.group key) ∧ now < e.expires

end CacheState

/-! ## Steps -/

inductive CacheEvent (W : Type) where
  | quiet (w : W)
  | other

/-- The steps of calls that look something up. -/
inductive LoadStep [DecidableEq K] [DecidableEq G] (spec : CacheSpec W R K G) :
    CacheState W R K G → CacheState W R K G → Prop where
  | tick (s : CacheState W R K G) (d : ℕ) : LoadStep spec s { s with clock := s.clock + d }
  | start {s : CacheState W R K G} {i : ℕ} (key : K) (hfree : s.calls i = none) :
      LoadStep spec s (s.setCall i (some (.started key s.clock s.settled)))
  | hit {s : CacheState W R K G} {i : ℕ} {key : K} {now : ℕ} {settled : List Settled}
      {e : CacheEntry W R} (hcall : s.calls i = some (.started key now settled))
      (husable : s.usable spec key now e) :
      LoadStep spec s ((s.register (spec.group key)).setCall i
        (some (.answered key now settled e.reads)))
  | miss {s : CacheState W R K G} {i : ℕ} {key : K} {now : ℕ} {settled : List Settled}
      (hcall : s.calls i = some (.started key now settled))
      (hmiss : ∀ e, ¬ s.usable spec key now e) :
      LoadStep spec s ((s.register (spec.group key)).setCall i
        (some (.loading key now settled (s.version (spec.group key)) [])))
  | read {s : CacheState W R K G} {i : ℕ} {key : K} {now : ℕ} {settled : List Settled} {v : ℕ}
      {reads : List (CacheRead W R)} {q : W → R}
      (hcall : s.calls i = some (.loading key now settled v reads))
      (hnext : spec.next key (reads.map CacheRead.value) = some q) :
      LoadStep spec s (s.setCall i
        (some (.loading key now settled v (reads ++ [⟨q, q s.world, s.written⟩]))))
  | fail {s : CacheState W R K G} {i : ℕ} {key : K} {now : ℕ} {settled : List Settled} {v : ℕ}
      {reads : List (CacheRead W R)}
      (hcall : s.calls i = some (.loading key now settled v reads)) :
      LoadStep spec s (s.setCall i none)
  | keep {s : CacheState W R K G} {i : ℕ} {key : K} {now : ℕ} {settled : List Settled} {v : ℕ}
      {reads : List (CacheRead W R)}
      (hcall : s.calls i = some (.loading key now settled v reads))
      (hdone : spec.next key (reads.map CacheRead.value) = none)
      (hversion : s.version (spec.group key) = v) :
      LoadStep spec s ((s.put key ⟨now + spec.ttl, v, reads⟩).setCall i
        (some (.answered key now settled reads)))
  | overtaken {s : CacheState W R K G} {i : ℕ} {key : K} {now : ℕ} {settled : List Settled}
      {v : ℕ} {reads : List (CacheRead W R)}
      (hcall : s.calls i = some (.loading key now settled v reads))
      (hdone : spec.next key (reads.map CacheRead.value) = none)
      (hversion : s.version (spec.group key) ≠ v) :
      LoadStep spec s (s.setCall i (some (.answered key now settled reads)))

/-- Lookups, changes that invalidate after their write, and quiet changes. -/
inductive CacheStep [DecidableEq K] [DecidableEq G] (spec : CacheSpec W R K G) :
    CacheState W R K G → CacheEvent W → CacheState W R K G → Prop where
  | load {s s' : CacheState W R K G} (h : LoadStep spec s s') : CacheStep spec s .other s'
  | write {s : CacheState W R K G} {i : ℕ} (w : W) (hfree : s.calls i = none) :
      CacheStep spec s .other ((s.write w).setCall i (some (.invalidating (s.written + 1))))
  | invalidate {s : CacheState W R K G} {i : ℕ} {change : ℕ}
      (hcall : s.calls i = some (.invalidating change)) :
      CacheStep spec s .other ((s.invalidateAll.settle change false).setCall i none)
  | quiet {s : CacheState W R K G} (w : W) :
      CacheStep spec s (.quiet w) ((s.write w).settle (s.written + 1) true)

namespace CacheState

/-- Nothing is cached and nothing is in progress. -/
structure Fresh (s : CacheState W R K G) : Prop where
  settled : s.settled = []
  cache : ∀ key, s.cache key = none
  calls : ∀ i, s.calls i = none

/-- A change that the query tells from the state before it. -/
def Matters (s : CacheState W R K G) (q : W → R) (change : ℕ) : Prop :=
  q (s.worlds change) ≠ q (s.worlds (change - 1))

/-- A quiet change that was settled less than the life of an entry ago. -/
def Recent (ttl now : ℕ) (c : Settled) : Prop :=
  c.quiet = true ∧ now < c.time + ttl

/-- No read of the answer was made before a settled change that matters to it,
recent quiet changes apart. -/
def FreshAnswer (s : CacheState W R K G) (ttl now : ℕ) (settled : List Settled)
    (reads : List (CacheRead W R)) : Prop :=
  ∀ c ∈ settled, ∀ r ∈ reads, s.Matters r.query c.change →
    c.change ≤ r.seen ∨ Recent ttl now c

end CacheState

/-- The queries of a load are those the specification asks for. -/
inductive Queried (spec : CacheSpec W R K G) (key : K) : List (CacheRead W R) → Prop where
  | nil : Queried spec key []
  | snoc {reads : List (CacheRead W R)} {r : CacheRead W R} (h : Queried spec key reads)
      (hnext : spec.next key (reads.map CacheRead.value) = some r.query) :
      Queried spec key (reads ++ [r])

theorem Queried.next_take {spec : CacheSpec W R K G} {key : K} {reads : List (CacheRead W R)}
    (h : Queried spec key reads) {i : ℕ} (hi : i < reads.length) :
    spec.next key ((reads.take i).map CacheRead.value) = some reads[i].query := by
  induction h with
  | nil => exact absurd hi (Nat.not_lt_zero i)
  | @snoc reads r hq hnext ih =>
      rw [List.length_append, List.length_singleton] at hi
      by_cases hlast : i < reads.length
      · rw [List.take_append_of_le_length (Nat.le_of_lt hlast), List.getElem_append_left hlast]
        exact ih hlast
      · have hi' : i = reads.length := by omega
        subst hi'
        simpa using hnext

/-! ## The invariant -/

namespace CacheState

variable {spec : CacheSpec W R K G} {s s' : CacheState W R K G}

/-- Reads of a key with the values the tables had. -/
structure SoundReads (s : CacheState W R K G) (spec : CacheSpec W R K G) (key : K)
    (reads : List (CacheRead W R)) : Prop where
  queried : Queried spec key reads
  seen_le : ∀ r ∈ reads, r.seen ≤ s.written
  value_eq : ∀ r ∈ reads, r.value = r.query (s.worlds r.seen)

/-- The reads of a finished load. -/
structure SoundAnswer (s : CacheState W R K G) (spec : CacheSpec W R K G) (key : K)
    (reads : List (CacheRead W R)) : Prop extends SoundReads s spec key reads where
  complete : spec.next key (reads.map CacheRead.value) = none

/-- Every settled change that matters was seen, unless the entry had expired by
then; a quiet change may be missed by an entry that was there before it. -/
def Current (s : CacheState W R K G) (ttl expires : ℕ) (reads : List (CacheRead W R)) : Prop :=
  ∀ c ∈ s.settled, c.time < expires → ∀ r ∈ reads, s.Matters r.query c.change →
    c.change ≤ r.seen ∨ c.quiet = true ∧ expires ≤ c.time + ttl

/-- What a call began with. -/
structure Began (s : CacheState W R K G) (now : ℕ) (settled : List Settled) : Prop where
  now_le : now ≤ s.clock
  sub : ∀ c ∈ settled, c ∈ s.settled
  before : ∀ c ∈ settled, c.time ≤ now

def CallOK (s : CacheState W R K G) (spec : CacheSpec W R K G) : CacheCall W R K → Prop
  | .started _ now settled => s.Began now settled
  | .loading key now settled v reads => s.Began now settled ∧ s.SoundReads spec key reads ∧
      (∀ c ∈ settled, ∀ r ∈ reads, c.change ≤ r.seen) ∧
      ∃ cur, s.versions (spec.group key) = some cur ∧ v ≤ cur ∧
        (v = cur → s.Current spec.ttl (now + spec.ttl) reads)
  | .answered key now settled reads => s.SoundAnswer spec key reads ∧
      (∀ c ∈ settled, c ∈ s.settled) ∧ s.FreshAnswer spec.ttl now settled reads
  | .invalidating change => change ≤ s.written

/-- What the cache holds for a key: a finished load that began by now. -/
structure EntryOK (s : CacheState W R K G) (spec : CacheSpec W R K G) (key : K)
    (e : CacheEntry W R) : Prop where
  sound : s.SoundAnswer spec key e.reads
  current : s.Current spec.ttl e.expires e.reads
  expires_le : e.expires ≤ s.clock + spec.ttl

structure Inv (s : CacheState W R K G) (spec : CacheSpec W R K G) : Prop where
  settled_le : ∀ c ∈ s.settled, c.change ≤ s.written ∧ c.time ≤ s.clock
  calls : ∀ i c, s.calls i = some c → s.CallOK spec c
  entries : ∀ key e, s.cache key = some e → s.EntryOK spec key e

theorem Fresh.inv (h : s.Fresh) : s.Inv spec where
  settled_le c hc := by
    rw [h.settled] at hc
    exact absurd hc List.not_mem_nil
  calls i c hc := by
    rw [h.calls i] at hc
    cases hc
  entries key e he := by
    rw [h.cache key] at he
    cases he

/-! ## Later states -/

/-- The history of `s` is a part of the history of `s'`. -/
structure Later (s s' : CacheState W R K G) : Prop where
  written_le : s.written ≤ s'.written
  worlds_eq : ∀ n ≤ s.written, s'.worlds n = s.worlds n
  clock_le : s.clock ≤ s'.clock
  settled_sub : ∀ c ∈ s.settled, c ∈ s'.settled

theorem Later.of_eq (hworlds : s'.worlds = s.worlds) (hwritten : s'.written = s.written)
    (hclock : s'.clock = s.clock) (hsettled : s'.settled = s.settled) : s.Later s' where
  written_le := hwritten.ge
  worlds_eq n _ := congrFun hworlds n
  clock_le := hclock.ge
  settled_sub _ hc := hsettled ▸ hc

theorem Later.matters (h : s.Later s') (q : W → R) {change : ℕ} (hle : change ≤ s.written) :
    s'.Matters q change ↔ s.Matters q change := by
  rw [Matters, Matters, h.worlds_eq change hle,
    h.worlds_eq (change - 1) ((Nat.sub_le change 1).trans hle)]

theorem Later.soundReads (h : s.Later s') {key : K} {reads : List (CacheRead W R)}
    (hreads : s.SoundReads spec key reads) : s'.SoundReads spec key reads where
  queried := hreads.queried
  seen_le r hr := (hreads.seen_le r hr).trans h.written_le
  value_eq r hr := by
    rw [h.worlds_eq r.seen (hreads.seen_le r hr)]
    exact hreads.value_eq r hr

theorem Later.soundAnswer (h : s.Later s') {key : K} {reads : List (CacheRead W R)}
    (hreads : s.SoundAnswer spec key reads) : s'.SoundAnswer spec key reads :=
  ⟨h.soundReads hreads.toSoundReads, hreads.complete⟩

theorem Later.began (h : s.Later s') {now : ℕ} {settled : List Settled}
    (hbegan : s.Began now settled) : s'.Began now settled where
  now_le := hbegan.now_le.trans h.clock_le
  sub c hc := h.settled_sub c (hbegan.sub c hc)
  before := hbegan.before

theorem Later.freshAnswer (h : s.Later s') {ttl now : ℕ} {settled : List Settled}
    {reads : List (CacheRead W R)} (hle : ∀ c ∈ settled, c.change ≤ s.written)
    (hfresh : s.FreshAnswer ttl now settled reads) : s'.FreshAnswer ttl now settled reads := by
  intro c hc r hr hmatters
  exact hfresh c hc r hr ((h.matters r.query (hle c hc)).mp hmatters)

theorem Later.current (h : s.Later s') (hle : ∀ c ∈ s.settled, c.change ≤ s.written)
    (hsettled : s'.settled = s.settled) {ttl expires : ℕ} {reads : List (CacheRead W R)}
    (hcurrent : s.Current ttl expires reads) : s'.Current ttl expires reads := by
  intro c hc htime r hr hmatters
  rw [hsettled] at hc
  exact hcurrent c hc htime r hr ((h.matters r.query (hle c hc)).mp hmatters)

/-- A call that a step leaves alone stays in order when every counter is raised, or
none is and what is live stays current. -/
theorem Inv.callOK_later (h : s.Inv spec) (hlater : s.Later s')
    (hgrow : ((∀ g cur, s.versions g = some cur → s'.versions g = some cur) ∧
        ∀ expires reads, expires ≤ s.clock + spec.ttl → s.Current spec.ttl expires reads →
          s'.Current spec.ttl expires reads) ∨
      ∀ g cur, s.versions g = some cur → s'.versions g = some (cur + 1))
    {i : ℕ} {c : CacheCall W R K} (hcall : s.calls i = some c) : s'.CallOK spec c := by
  have hok := h.calls i c hcall
  cases c with
  | started key now settled => exact hlater.began hok
  | loading key now settled v reads =>
      obtain ⟨hbegan, hreads, hfloor, cur, hcur, hle, hcurrent⟩ := hok
      refine ⟨hlater.began hbegan, hlater.soundReads hreads, hfloor, ?_⟩
      rcases hgrow with ⟨hsame, hkeeps⟩ | hraised
      · refine ⟨cur, hsame _ _ hcur, hle, ?_⟩
        intro heq
        exact hkeeps _ _ (Nat.add_le_add_right hbegan.now_le _) (hcurrent heq)
      · refine ⟨cur + 1, hraised _ _ hcur, hle.trans (Nat.le_succ cur), ?_⟩
        intro heq
        exact absurd hle (by omega)
  | answered key now settled reads =>
      obtain ⟨hreads, hsub, hfresh⟩ := hok
      exact ⟨hlater.soundAnswer hreads, fun c hc => hlater.settled_sub c (hsub c hc),
        hlater.freshAnswer (fun c hc => (h.settled_le c (hsub c hc)).1) hfresh⟩
  | invalidating change => exact le_trans hok hlater.written_le

/-! ## One step -/

/-- What a lookup needs to show: how its own call ends and what it leaves in the
cache. -/
theorem Inv.of_load (h : s.Inv spec) (hlater : s.Later s') (hsettled : s'.settled = s.settled)
    (hversions : ∀ g cur, s.versions g = some cur → s'.versions g = some cur)
    (hcalls : ∀ i c, s'.calls i = some c → s.calls i = some c ∨ s'.CallOK spec c)
    (hentries : ∀ key e, s'.cache key = some e → s.cache key = some e ∨
      s.EntryOK spec key e) : s'.Inv spec where
  settled_le c hc := by
    rw [hsettled] at hc
    obtain ⟨hchange, htime⟩ := h.settled_le c hc
    exact ⟨hchange.trans hlater.written_le, htime.trans hlater.clock_le⟩
  calls i c hc := by
    rcases hcalls i c hc with hold | hok
    · refine h.callOK_later hlater (Or.inl ⟨hversions, ?_⟩) hold
      intro expires reads _ hcurrent
      exact hlater.current (fun c hc => (h.settled_le c hc).1) hsettled hcurrent
    · exact hok
  entries key e he := by
    have hle : ∀ c ∈ s.settled, c.change ≤ s.written := fun c hc => (h.settled_le c hc).1
    have hentry : s.EntryOK spec key e := by
      rcases hentries key e he with hold | hnew
      · exact h.entries key e hold
      · exact hnew
    exact ⟨hlater.soundAnswer hentry.sound, hlater.current hle hsettled hentry.current,
      hentry.expires_le.trans (Nat.add_le_add_right hlater.clock_le _)⟩

theorem calls_setCall {s : CacheState W R K G} {i j : ℕ} {c c' : Option (CacheCall W R K)}
    (h : (s.setCall i c).calls j = c') : (j = i ∧ c = c') ∨ s.calls j = c' := by
  by_cases hji : j = i
  · subst hji
    exact Or.inl ⟨rfl, by simpa [setCall] using h⟩
  · exact Or.inr (by simpa [setCall, hji] using h)

theorem register_some [DecidableEq G] (s : CacheState W R K G) {g g' : G} {cur : ℕ}
    (h : s.versions g' = some cur) : (s.register g).versions g' = some cur := by
  by_cases hg : g' = g
  · subst hg
    simp [register, version, h]
  · simp [register, hg, h]

theorem register_self [DecidableEq G] (s : CacheState W R K G) (g : G) :
    (s.register g).versions g = some (s.version g) := by
  simp [register]

/-- An answer from a usable entry is fresh: the call began before the entry
expired, so every change settled then was settled while the entry lived. -/
theorem Inv.answer_of_usable (h : s.Inv spec) {key : K} {now : ℕ} {settled : List Settled}
    {e : CacheEntry W R} (hbegan : s.Began now settled) (husable : s.usable spec key now e) :
    s.FreshAnswer spec.ttl now settled e.reads := by
  intro c hc r hr hmatters
  have htime : c.time < e.expires := (hbegan.before c hc).trans_lt husable.2.2
  rcases (h.entries key e husable.1).current c (hbegan.sub c hc) htime r hr hmatters with
    hseen | ⟨hquiet, hexpires⟩
  · exact Or.inl hseen
  · exact Or.inr ⟨hquiet, husable.2.2.trans_le hexpires⟩

theorem LoadStep.inv [DecidableEq K] [DecidableEq G] (h : s.Inv spec)
    (hstep : LoadStep spec s s') : s'.Inv spec := by
  have hle : ∀ c ∈ s.settled, c.change ≤ s.written := fun c hc => (h.settled_le c hc).1
  cases hstep with
  | tick d =>
      have hlater : s.Later { s with clock := s.clock + d } :=
        ⟨le_rfl, fun _ _ => rfl, Nat.le_add_right _ _, fun _ hc => hc⟩
      exact h.of_load hlater rfl (fun _ _ hv => hv) (fun _ _ hc => Or.inl hc)
        (fun _ _ he => Or.inl he)
  | @start i key hfree =>
      refine h.of_load (.of_eq rfl rfl rfl rfl) rfl (fun _ _ hv => hv) ?_
        (fun _ _ he => Or.inl he)
      intro j c hc
      rcases calls_setCall hc with ⟨-, hnew⟩ | hold
      · obtain rfl := Option.some.inj hnew
        exact Or.inr ⟨le_rfl, fun _ hc => hc, fun c hc => (h.settled_le c hc).2⟩
      · exact Or.inl hold
  | @hit i key now settled e hcall husable =>
      refine h.of_load (.of_eq rfl rfl rfl rfl) rfl (fun _ _ hv => s.register_some hv) ?_
        (fun _ _ he => Or.inl he)
      intro j c hc
      rcases calls_setCall hc with ⟨-, hnew⟩ | hold
      · obtain rfl := Option.some.inj hnew
        have hbegan : s.Began now settled := h.calls i _ hcall
        have hsound := (h.entries key e husable.1).sound
        exact Or.inr ⟨⟨⟨hsound.queried, hsound.seen_le, hsound.value_eq⟩, hsound.complete⟩,
          hbegan.sub, h.answer_of_usable hbegan husable⟩
      · exact Or.inl hold
  | @miss i key now settled hcall hmiss =>
      refine h.of_load (.of_eq rfl rfl rfl rfl) rfl (fun _ _ hv => s.register_some hv) ?_
        (fun _ _ he => Or.inl he)
      intro j c hc
      rcases calls_setCall hc with ⟨-, hnew⟩ | hold
      · obtain rfl := Option.some.inj hnew
        have hbegan : s.Began now settled := h.calls i _ hcall
        refine Or.inr ⟨⟨hbegan.now_le, hbegan.sub, hbegan.before⟩,
          ⟨.nil, fun r hr => absurd hr List.not_mem_nil, fun r hr => absurd hr List.not_mem_nil⟩,
          fun c _ r hr => absurd hr List.not_mem_nil, _, s.register_self _, le_rfl, ?_⟩
        intro _ c _ _ r hr
        exact absurd hr List.not_mem_nil
      · exact Or.inl hold
  | @read i key now settled v reads q hcall hnext =>
      refine h.of_load (.of_eq rfl rfl rfl rfl) rfl (fun _ _ hv => hv) ?_
        (fun _ _ he => Or.inl he)
      intro j c hc
      rcases calls_setCall hc with ⟨-, hnew⟩ | hold
      · obtain rfl := Option.some.inj hnew
        obtain ⟨hbegan, hreads, hfloor, cur, hcur, hvle, hcurrent⟩ := h.calls i _ hcall
        -- the new read sees every change there is
        have hsees : ∀ c ∈ s.settled, ∀ r ∈ [CacheRead.mk q (q s.world) s.written],
            c.change ≤ r.seen := by
          intro c hc r hr
          rw [List.mem_singleton.mp hr]
          exact hle c hc
        refine Or.inr ⟨⟨hbegan.now_le, hbegan.sub, hbegan.before⟩,
          ⟨.snoc hreads.queried hnext, ?_, ?_⟩, ?_, cur, hcur, hvle, ?_⟩
        · intro r hr
          rcases List.mem_append.mp hr with hr | hr
          · exact hreads.seen_le r hr
          · rw [List.mem_singleton.mp hr]
            exact le_rfl
        · intro r hr
          rcases List.mem_append.mp hr with hr | hr
          · exact hreads.value_eq r hr
          · rw [List.mem_singleton.mp hr]
            rfl
        · intro c hc r hr
          rcases List.mem_append.mp hr with hr | hr
          · exact hfloor c hc r hr
          · exact hsees c (hbegan.sub c hc) r hr
        · intro hv c hc htime r hr hmatters
          rcases List.mem_append.mp hr with hr | hr
          · exact hcurrent hv c hc htime r hr hmatters
          · exact Or.inl (hsees c hc r hr)
      · exact Or.inl hold
  | @fail i key now settled v reads hcall =>
      refine h.of_load (.of_eq rfl rfl rfl rfl) rfl (fun _ _ hv => hv) ?_
        (fun _ _ he => Or.inl he)
      intro j c hc
      rcases calls_setCall hc with ⟨-, hnew⟩ | hold
      · cases hnew
      · exact Or.inl hold
  | @keep i key now settled v reads hcall hdone hversion =>
      obtain ⟨hbegan, hreads, hfloor, cur, hcur, hvle, hcurrent⟩ := h.calls i _ hcall
      have hv : v = cur := by
        rw [← hversion, version, hcur, Option.getD_some]
      refine h.of_load (.of_eq rfl rfl rfl rfl) rfl (fun _ _ hv => hv) ?_ ?_
      · intro j c hc
        rcases calls_setCall hc with ⟨-, hnew⟩ | hold
        · obtain rfl := Option.some.inj hnew
          exact Or.inr ⟨⟨⟨hreads.queried, hreads.seen_le, hreads.value_eq⟩, hdone⟩,
            hbegan.sub, fun c hc r hr _ => Or.inl (hfloor c hc r hr)⟩
        · exact Or.inl hold
      · intro k e he
        by_cases hk : k = key
        · subst hk
          have hentry : e = ⟨now + spec.ttl, v, reads⟩ := by
            simpa [setCall, put] using he.symm
          rw [hentry]
          exact Or.inr ⟨⟨hreads, hdone⟩, hcurrent hv, Nat.add_le_add_right hbegan.now_le _⟩
        · exact Or.inl (by simpa [setCall, put, hk] using he)
  | @overtaken i key now settled v reads hcall hdone hversion =>
      obtain ⟨hbegan, hreads, hfloor, -⟩ := h.calls i _ hcall
      refine h.of_load (.of_eq rfl rfl rfl rfl) rfl (fun _ _ hv => hv) ?_
        (fun _ _ he => Or.inl he)
      intro j c hc
      rcases calls_setCall hc with ⟨-, hnew⟩ | hold
      · obtain rfl := Option.some.inj hnew
        exact Or.inr ⟨⟨⟨hreads.queried, hreads.seen_le, hreads.value_eq⟩, hdone⟩,
          hbegan.sub, fun c hc r hr _ => Or.inl (hfloor c hc r hr)⟩
      · exact Or.inl hold

theorem later_write (s : CacheState W R K G) (w : W) : s.Later (s.write w) where
  written_le := Nat.le_succ _
  worlds_eq n hn := by
    have hne : n ≠ s.written + 1 := by omega
    simp [write, hne]
  clock_le := le_rfl
  settled_sub _ hc := hc

theorem Inv.written (h : s.Inv spec) (w : W) (i : ℕ) :
    ((s.write w).setCall i (some (.invalidating (s.written + 1)))).Inv spec := by
  have hlater : s.Later ((s.write w).setCall i (some (.invalidating (s.written + 1)))) :=
    ⟨(s.later_write w).written_le, (s.later_write w).worlds_eq, le_rfl, fun _ hc => hc⟩
  refine h.of_load hlater rfl (fun _ _ hv => hv) ?_ (fun _ _ he => Or.inl he)
  intro j c hc
  rcases calls_setCall hc with ⟨-, hnew⟩ | hold
  · obtain rfl := Option.some.inj hnew
    exact Or.inr (le_refl (s.written + 1))
  · exact Or.inl hold

/-- Once the entries are gone and every load under way is overtaken, nothing that
missed the change can be answered from. -/
theorem Inv.invalidated (h : s.Inv spec) {i change : ℕ}
    (hcall : s.calls i = some (.invalidating change)) :
    ((s.invalidateAll.settle change false).setCall i none).Inv spec := by
  have hlater : s.Later ((s.invalidateAll.settle change false).setCall i none) :=
    ⟨le_rfl, fun _ _ => rfl, le_rfl, fun _ hc => List.mem_cons_of_mem _ hc⟩
  constructor
  · intro c hc
    rcases List.mem_cons.mp hc with rfl | hc
    · exact ⟨h.calls i _ hcall, le_rfl⟩
    · exact h.settled_le c hc
  · intro j c hc
    rcases calls_setCall hc with ⟨-, hnew⟩ | hold
    · cases hnew
    · refine h.callOK_later hlater (Or.inr ?_) hold
      intro g cur hcur
      exact congrArg (Option.map (· + 1)) hcur
  · intro key e he
    cases he

/-- An entry that is there at a quiet change, or a load that may still become
one, expires soon after it. -/
theorem Inv.quiet (h : s.Inv spec) (w : W) :
    ((s.write w).settle (s.written + 1) true).Inv spec := by
  have hwrite := s.later_write w
  have hlater : s.Later ((s.write w).settle (s.written + 1) true) :=
    ⟨hwrite.written_le, hwrite.worlds_eq, le_rfl, fun _ hc => List.mem_cons_of_mem _ hc⟩
  have hkeeps : ∀ expires reads, expires ≤ s.clock + spec.ttl →
      s.Current spec.ttl expires reads →
      ((s.write w).settle (s.written + 1) true).Current spec.ttl expires reads := by
    intro expires reads hexpires hcurrent c hc htime r hr hmatters
    rcases List.mem_cons.mp hc with rfl | hc
    · exact Or.inr ⟨rfl, hexpires⟩
    · have hle := (h.settled_le c hc).1
      exact hcurrent c hc htime r hr ((hlater.matters r.query hle).mp hmatters)
  constructor
  · intro c hc
    rcases List.mem_cons.mp hc with rfl | hc
    · exact ⟨le_rfl, le_rfl⟩
    · obtain ⟨hchange, htime⟩ := h.settled_le c hc
      exact ⟨hchange.trans hwrite.written_le, htime⟩
  · intro j c hc
    exact h.callOK_later hlater (Or.inl ⟨fun _ _ hv => hv, hkeeps⟩) hc
  · intro key e he
    obtain ⟨hsound, hcurrent, hexpires⟩ := h.entries key e he
    exact ⟨hlater.soundAnswer hsound, hkeeps _ _ hexpires hcurrent, hexpires⟩

theorem Inv.step [DecidableEq K] [DecidableEq G] {e : CacheEvent W} (h : s.Inv spec)
    (hstep : CacheStep spec s e s') : s'.Inv spec := by
  cases hstep with
  | load hload => exact LoadStep.inv h hload
  | write w hfree => exact h.written w _
  | invalidate hcall => exact h.invalidated hcall
  | quiet w => exact h.quiet w

theorem Inv.answer_fresh (h : s.Inv spec) {i : ℕ} {key : K} {now : ℕ}
    {settled : List Settled} {reads : List (CacheRead W R)}
    (hanswer : s.calls i = some (.answered key now settled reads)) :
    s.SoundAnswer spec key reads ∧ s.FreshAnswer spec.ttl now settled reads ∧
      ∀ c ∈ settled, c ∈ s.settled := by
  obtain ⟨hsound, hsub, hanswered⟩ := h.calls i _ hanswer
  exact ⟨hsound, hanswered, hsub⟩

/-! ## Quiet changes -/

/-- Every settled quiet change is one of the kind. -/
def QuietAre (s : CacheState W R K G) (kind : W → W → Prop) : Prop :=
  ∀ c ∈ s.settled, c.quiet = true → kind (s.worlds (c.change - 1)) (s.worlds c.change)

theorem LoadStep.same_history [DecidableEq K] [DecidableEq G] (h : LoadStep spec s s') :
    s'.worlds = s.worlds ∧ s'.settled = s.settled := by
  cases h with
  | _ => exact ⟨rfl, rfl⟩

theorem QuietAre.step [DecidableEq K] [DecidableEq G] {kind : W → W → Prop} {e : CacheEvent W}
    (h : s.QuietAre kind) (hinv : s.Inv spec) (hkind : ∀ w, e = .quiet w → kind s.world w)
    (hstep : CacheStep spec s e s') : s'.QuietAre kind := by
  -- the history up to a settled change stays as it is
  have hold : ∀ (w : W), ∀ c ∈ s.settled, c.quiet = true →
      kind ((s.write w).worlds (c.change - 1)) ((s.write w).worlds c.change) := by
    intro w c hc hquiet
    have hle := (hinv.settled_le c hc).1
    rw [(s.later_write w).worlds_eq _ hle,
      (s.later_write w).worlds_eq _ ((Nat.sub_le _ _).trans hle)]
    exact h c hc hquiet
  cases hstep with
  | load hload =>
      obtain ⟨hworlds, hsettled⟩ := LoadStep.same_history hload
      rw [QuietAre, hworlds, hsettled]
      exact h
  | write w hfree => exact hold w
  | invalidate hcall =>
      intro c hc hquiet
      rcases List.mem_cons.mp hc with rfl | hc
      · cases hquiet
      · exact h c hc hquiet
  | quiet w =>
      intro c hc hquiet
      rcases List.mem_cons.mp hc with rfl | hc
      · change kind ((s.write w).worlds s.written) ((s.write w).worlds (s.written + 1))
        rw [(s.later_write w).worlds_eq _ le_rfl]
        have hlast : (s.write w).worlds (s.written + 1) = w := by simp [write]
        rw [hlast]
        exact hkind w rfl
      · exact hold w c hc hquiet

theorem Fresh.quietAre (h : s.Fresh) (kind : W → W → Prop) : s.QuietAre kind := by
  intro c hc
  rw [h.settled] at hc
  exact absurd hc List.not_mem_nil

end CacheState

end Nipa.Support
