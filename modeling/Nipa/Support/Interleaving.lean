import Mathlib.Data.List.Basic
import Mathlib.Logic.Relation

/-!
# Requests in any order of steps

Requests run side by side over one shared state.  A request is a program whose steps are
atomic: a step reads the state, leaves another one and goes on according to what it read.
A server starts requests, lets any of them take its next step, and the world may change
the state by itself; what happened is kept as a trace.

A request is justified when every step it takes is allowed to it and what it returns is
right, whatever the others have done in between, as long as they kept to what they are
allowed.  Where every request is justified when it starts, every step of every run is
allowed and every answer is right.
-/

namespace Nipa.Support

/-- A program with atomic steps on `σ` that fails with `ε` or returns an `α`. -/
inductive Request (σ ε α : Type) where
  | ret (a : α)
  | fail (e : ε)
  | step (f : σ → σ) (k : σ → Request σ ε α)

namespace Request

variable {σ ε α β : Type}

def bind : Request σ ε α → (α → Request σ ε β) → Request σ ε β
  | ret a, g => g a
  | fail e, _ => fail e
  | step f k, g => step f fun s => (k s).bind g

instance : Monad (Request σ ε) where
  pure := ret
  bind := bind

theorem bind_pure (p : Request σ ε α) : p >>= pure = p := by
  change p.bind ret = p
  induction p with
  | ret a => rfl
  | fail e => rfl
  | step f k ih => exact congrArg (step f) (funext ih)

/-- What neither reads nor writes. -/
def lift : Except ε α → Request σ ε α
  | .ok a => ret a
  | .error e => fail e

/-- Reads the state. -/
def query (g : σ → Except ε α) : Request σ ε α :=
  step id fun s => lift (g s)

/-- A query whose failure is looked at. -/
def attempt (g : σ → Except ε α) : Request σ ε (Except ε α) :=
  step id fun s => ret (g s)

/-- Reads and writes at once; a failure leaves the state as it was. -/
def transact (g : σ → Except ε (α × σ)) : Request σ ε α :=
  step (fun s => match g s with | .ok r => r.2 | .error _ => s) fun s => lift ((g s).map Prod.fst)

/-- A write whose failure is looked at. -/
def attemptTransact (g : σ → Except ε (α × σ)) : Request σ ε (Except ε α) :=
  step (fun s => match g s with | .ok r => r.2 | .error _ => s) fun s =>
    ret ((g s).map Prod.fst)

end Request

/-! ## Traces -/

/-- Who took a step, and the states around it. -/
structure Entry (ρ σ : Type) where
  actor : Option (ℕ × ρ)
  before : σ
  after : σ

/-- The state and the steps that led to it, the newest first. -/
structure Trace (ρ σ : Type) where
  now : σ
  past : List (Entry ρ σ)

namespace Trace

variable {ρ σ : Type}

def push (h : Trace ρ σ) (actor : Option (ℕ × ρ)) (s : σ) : Trace ρ σ :=
  ⟨s, ⟨actor, h.now, s⟩ :: h.past⟩

/-- Every state a trace went through. -/
def states (h : Trace ρ σ) : List σ :=
  h.now :: h.past.map Entry.before

theorem mem_states_of_past {h : Trace ρ σ} {e : Entry ρ σ} (he : e ∈ h.past) :
    e.before ∈ h.states :=
  List.mem_cons_of_mem _ (List.mem_map_of_mem he)

end Trace

section Rely

variable {ρ σ ε α β : Type} (G : Option (ℕ × ρ) → Trace ρ σ → σ → Prop)

/-- A trace all of whose steps were allowed. -/
inductive Lawful (s₀ : σ) : Trace ρ σ → Prop where
  | start : Lawful s₀ ⟨s₀, []⟩
  | push {h : Trace ρ σ} {actor : Option (ℕ × ρ)} {s : σ} (hlawful : Lawful s₀ h)
      (hallowed : G actor h s) : Lawful s₀ (h.push actor s)

/-- What others than request `i` may have added to a trace. -/
inductive Others (i : ℕ) : Trace ρ σ → Trace ρ σ → Prop where
  | refl (h : Trace ρ σ) : Others i h h
  | push {h h' : Trace ρ σ} {actor : Option (ℕ × ρ)} {s : σ} (hothers : Others i h h')
      (hactor : ∀ r, actor ≠ some (i, r)) (hallowed : G actor h' s) :
      Others i h (h'.push actor s)

/-- What anyone may have added to a trace. -/
inductive Follows : Trace ρ σ → Trace ρ σ → Prop where
  | refl (h : Trace ρ σ) : Follows h h
  | push {h h' : Trace ρ σ} {actor : Option (ℕ × ρ)} {s : σ} (hfollows : Follows h h')
      (hallowed : G actor h' s) : Follows h (h'.push actor s)

variable {G}

namespace Follows

variable {h h' h'' : Trace ρ σ}

theorem trans (hfirst : Follows G h h') (hthen : Follows G h' h'') : Follows G h h'' := by
  induction hthen with
  | refl => exact hfirst
  | push _ hallowed ih => exact ih.push hallowed

theorem stable {I : Trace ρ σ → Prop} (hfollows : Follows G h h') (hnow : I h)
    (hkeep : ∀ h actor s, I h → G actor h s → I (h.push actor s)) : I h' := by
  induction hfollows with
  | refl => exact hnow
  | push _ hallowed ih => exact hkeep _ _ _ ih hallowed

theorem past_subset (hfollows : Follows G h h') : h.past ⊆ h'.past :=
  hfollows.stable (I := fun h' => h.past ⊆ h'.past) (List.Subset.refl _)
    fun _ _ _ hsub _ _ he => List.mem_cons_of_mem _ (hsub he)

end Follows

variable {h : Trace ρ σ}

theorem Lawful.after_mem_states {s₀ : σ} (hlawful : Lawful G s₀ h) {e : Entry ρ σ}
    (he : e ∈ h.past) :
    e.after ∈ h.states := by
  induction hlawful with
  | start => exact absurd he List.not_mem_nil
  | push _ _ ih =>
      rcases List.mem_cons.mp he with rfl | he
      · exact List.mem_cons_self
      · exact List.mem_cons_of_mem _ (ih he)

theorem Lawful.allowed_of_mem {s₀ : σ} (hlawful : Lawful G s₀ h) {e : Entry ρ σ} (he : e ∈ h.past) :
    ∃ h' : Trace ρ σ, h'.now = e.before ∧ G e.actor h' e.after := by
  induction hlawful with
  | start => exact absurd he List.not_mem_nil
  | push _ hallowed ih =>
      rcases List.mem_cons.mp he with rfl | he
      · exact ⟨_, rfl, hallowed⟩
      · exact ih he

theorem Lawful.since {s₀ : σ} {I : σ → Prop} (hlawful : Lawful G s₀ h) {e : Entry ρ σ}
    {later earlier : List (Entry ρ σ)}
    (hkeep : ∀ h actor s, Lawful G s₀ h → e :: earlier <:+ h.past → I h.now →
      G actor h s → I s) (hpast : h.past = later ++ e :: earlier) (hafter : I e.after) :
    (∀ e' ∈ later, I e'.before) ∧ I h.now := by
  induction hlawful generalizing later with
  | start => exact absurd hpast.symm (List.append_ne_nil_of_right_ne_nil _ (List.cons_ne_nil _ _))
  | @push h actor s hlawful hallowed ih =>
      rcases later with _ | ⟨d, later⟩
      · obtain ⟨rfl, -⟩ := List.cons.inj hpast
        exact ⟨fun e' he' => absurd he' List.not_mem_nil, hafter⟩
      · obtain ⟨rfl, hrest⟩ := List.cons.inj hpast
        obtain ⟨hlater, hnow⟩ := ih hrest
        refine ⟨fun e' he' => ?_, ?_⟩
        · rcases List.mem_cons.mp he' with rfl | he'
          · exact hnow
          · exact hlater e' he'
        · exact hkeep h actor s hlawful ⟨later, hrest.symm⟩ hnow hallowed

/-! ### What comes only once -/

section Once

variable {s₀ : σ} {I : σ → Prop}
  (hnew : ∀ h actor s, Lawful G s₀ h → G actor h s → I s →
    I h.now ∨ ∀ s' ∈ h.states, ¬I s')

include hnew

theorem Lawful.gone {h : Trace ρ σ} (hlawful : Lawful G s₀ h) {e : Entry ρ σ}
    {later earlier : List (Entry ρ σ)} (hpast : h.past = later ++ e :: earlier) {s : σ}
    (hs : s ∈ (e :: earlier).map Entry.before) (hheld : I s) (hgone : ¬I e.after) :
    (∀ e' ∈ later, ¬I e'.before) ∧ ¬I h.now := by
  refine hlawful.since (I := fun s => ¬I s) (fun h' actor t hlawful' hsuffix hnot hallowed
    hholds => ?_) hpast hgone
  rcases hnew h' actor t hlawful' hallowed hholds with hstill | hnever
  · exact hnot hstill
  · refine hnever s (List.mem_cons_of_mem _ ?_) hheld
    exact List.map_subset _ hsuffix.subset hs

theorem Lawful.taken_once {h : Trace ρ σ} (hlawful : Lawful G s₀ h) {e e' : Entry ρ σ}
    (he : e ∈ h.past) (he' : e' ∈ h.past) (hheld : I e.before) (hgone : ¬I e.after)
    (hheld' : I e'.before) (hgone' : ¬I e'.after) : e = e' := by
  obtain ⟨later, earlier, hpast⟩ := List.append_of_mem he
  rw [hpast] at he'
  rcases List.mem_append.mp he' with hlater | hrest
  · exact absurd hheld' ((hlawful.gone hnew hpast List.mem_cons_self hheld hgone).1 e' hlater)
  · rcases List.mem_cons.mp hrest with rfl | hearlier
    · rfl
    · obtain ⟨between, before, rfl⟩ := List.append_of_mem hearlier
      have hpast' : h.past = (later ++ e :: between) ++ e' :: before := by
        rw [hpast, List.append_assoc, List.cons_append]
      exact absurd hheld ((hlawful.gone hnew hpast' List.mem_cons_self hheld' hgone').1 e
        (List.mem_append_right _ List.mem_cons_self))

end Once

theorem Lawful.of_idle {s₀ : σ} (hlawful : Lawful G s₀ h) {i : ℕ}
    (hidle : ∀ e ∈ h.past, ∀ r, e.actor ≠ some (i, r)) : Others G i ⟨s₀, []⟩ h := by
  induction hlawful with
  | start => exact Others.refl _
  | push _ hallowed ih =>
      exact (ih fun e he => hidle e (List.mem_cons_of_mem _ he)).push
        (hidle _ List.mem_cons_self) hallowed

namespace Others

variable {i : ℕ} {h h' h'' : Trace ρ σ}

theorem trans (hfirst : Others G i h h') (hthen : Others G i h' h'') :
    Others G i h h'' := by
  induction hthen with
  | refl => exact hfirst
  | push _ hactor hallowed ih => exact ih.push hactor hallowed

theorem stable {I : Trace ρ σ → Prop} (hothers : Others G i h h') (hnow : I h)
    (hkeep : ∀ h actor s, I h → (∀ r, actor ≠ some (i, r)) → G actor h s →
      I (h.push actor s)) : I h' := by
  induction hothers with
  | refl => exact hnow
  | push _ hactor hallowed ih => exact hkeep _ _ _ ih hactor hallowed

theorem follows (hothers : Others G i h h') : Follows G h h' := by
  induction hothers with
  | refl => exact Follows.refl _
  | push _ _ hallowed ih => exact ih.push hallowed

theorem lawful {s₀ : σ} (hothers : Others G i h h') (hlawful : Lawful G s₀ h) :
    Lawful G s₀ h' :=
  hothers.stable (I := Lawful G s₀) hlawful fun _ _ _ hlawful _ hallowed =>
    hlawful.push hallowed

end Others

/-! ## Justified requests -/

/-- Request `i`, which asks `r`, takes allowed steps only and returns what meets `Q`. -/
def Justified (G : Option (ℕ × ρ) → Trace ρ σ → σ → Prop) (s₀ : σ) (i : ℕ) (r : ρ)
    (Q : α → Trace ρ σ → Prop) : Request σ ε α → Trace ρ σ → Prop
  | .ret a, h => ∀ h', Others G i h h' → Lawful G s₀ h' → Q a h'
  | .fail _, _ => True
  | .step f k, h => ∀ h', Others G i h h' → Lawful G s₀ h' →
      G (some (i, r)) h' (f h'.now) ∧
        Justified G s₀ i r Q (k h'.now) (h'.push (some (i, r)) (f h'.now))

namespace Justified

variable {s₀ : σ} {i : ℕ} {r : ρ} {Q : β → Trace ρ σ → Prop} {h : Trace ρ σ}

theorem mono {p : Request σ ε β} {h' : Trace ρ σ} (hp : Justified G s₀ i r Q p h)
    (hothers : Others G i h h') : Justified G s₀ i r Q p h' := by
  cases p with
  | ret a => exact fun h'' hthen => hp h'' (hothers.trans hthen)
  | fail e => trivial
  | step f k => exact fun h'' hthen => hp h'' (hothers.trans hthen)

theorem fail (e : ε) : Justified G s₀ i r Q (.fail e : Request σ ε β) h := trivial

variable {g : α → Request σ ε β}

theorem bind {p : Request σ ε α}
    (hp : Justified G s₀ i r (fun a h => Justified G s₀ i r Q (g a) h) p h)
    (hlawful : Lawful G s₀ h) : Justified G s₀ i r Q (p >>= g) h := by
  change Justified G s₀ i r Q (p.bind g) h
  induction p generalizing h with
  | ret a => exact hp h (Others.refl h) hlawful
  | fail e => trivial
  | step f k ih =>
      intro h' hothers hlawful'
      obtain ⟨hallowed, hnext⟩ := hp h' hothers hlawful'
      exact ⟨hallowed, ih _ hnext (hlawful'.push hallowed)⟩

theorem step_bind {f : σ → σ} {k : σ → Request σ ε α}
    (hstep : ∀ h', Others G i h h' → Lawful G s₀ h' →
      G (some (i, r)) h' (f h'.now) ∧
        Justified G s₀ i r Q (k h'.now >>= g) (h'.push (some (i, r)) (f h'.now))) :
    Justified G s₀ i r Q (Request.step f k >>= g) h :=
  hstep

theorem lift_bind {x : Except ε α} (hok : ∀ a, x = .ok a → Justified G s₀ i r Q (g a) h) :
    Justified G s₀ i r Q (Request.lift x >>= g) h := by
  rcases x with e | a
  · trivial
  · exact hok a rfl

theorem query_bind {x : σ → Except ε α} (hidle : ∀ h', G (some (i, r)) h' h'.now)
    (hok : ∀ h' a, Others G i h h' → Lawful G s₀ h' → x h'.now = .ok a →
      Justified G s₀ i r Q (g a) (h'.push (some (i, r)) h'.now)) :
    Justified G s₀ i r Q (Request.query x >>= g) h :=
  step_bind fun h' hothers hlawful =>
    ⟨hidle h', lift_bind fun a ha => hok h' a hothers hlawful ha⟩

theorem attempt_bind {x : σ → Except ε α} {g : Except ε α → Request σ ε β}
    (hidle : ∀ h', G (some (i, r)) h' h'.now)
    (hok : ∀ h', Others G i h h' → Lawful G s₀ h' →
      Justified G s₀ i r Q (g (x h'.now)) (h'.push (some (i, r)) h'.now)) :
    Justified G s₀ i r Q (Request.attempt x >>= g) h :=
  step_bind fun h' hothers hlawful => ⟨hidle h', hok h' hothers hlawful⟩

theorem transact_bind {x : σ → Except ε (α × σ)} (hidle : ∀ h', G (some (i, r)) h' h'.now)
    (hok : ∀ h' a s', Others G i h h' → Lawful G s₀ h' → x h'.now = .ok (a, s') →
      G (some (i, r)) h' s' ∧ Justified G s₀ i r Q (g a) (h'.push (some (i, r)) s')) :
    Justified G s₀ i r Q (Request.transact x >>= g) h := by
  refine step_bind fun h' hothers hlawful => ?_
  cases hx : x h'.now with
  | error e => exact ⟨hidle h', trivial⟩
  | ok a => exact hok h' a.1 a.2 hothers hlawful hx

end Justified

end Rely

/-! ## Servers -/

/-- What has happened, and every request with what is left of it.  A request has the
number of its place. -/
structure Server (ρ σ ε α : Type) where
  trace : Trace ρ σ
  requests : List (ρ × Request σ ε α)

namespace Server

variable {ρ σ ε α : Type}

section Steps

variable (program : ℕ → ρ → Request σ ε α) (accept : Server ρ σ ε α → ρ → Prop)
  (world : σ → σ → Prop)

inductive Step : Server ρ σ ε α → Server ρ σ ε α → Prop where
  | start {s : Server ρ σ ε α} {r : ρ} (haccept : accept s r) :
      Step s ⟨s.trace, s.requests ++ [(r, program s.requests.length r)]⟩
  | move {s : Server ρ σ ε α} {i : ℕ} {r : ρ} {f : σ → σ} {k : σ → Request σ ε α}
      (hnext : s.requests[i]? = some (r, .step f k)) :
      Step s ⟨s.trace.push (some (i, r)) (f s.trace.now),
        s.requests.set i (r, k s.trace.now)⟩
  | world {s : Server ρ σ ε α} {t : σ} (hworld : world s.trace.now t) :
      Step s ⟨s.trace.push none t, s.requests⟩

/-- The servers that runs from a state without requests lead to. -/
def Reachable (s₀ : σ) : Server ρ σ ε α → Prop :=
  Relation.ReflTransGen (Step program accept world) ⟨⟨s₀, []⟩, []⟩

/-- A request comes in. -/
def ask (s : Server ρ σ ε α) (r : ρ) : Server ρ σ ε α :=
  ⟨s.trace, s.requests ++ [(r, program s.requests.length r)]⟩

/-- A request takes its next step, if it has one. -/
def advance (s : Server ρ σ ε α) (i : ℕ) : Server ρ σ ε α :=
  match s.requests[i]? with
  | some (r, .step f k) =>
      ⟨s.trace.push (some (i, r)) (f s.trace.now), s.requests.set i (r, k s.trace.now)⟩
  | _ => s

variable {program accept world}

theorem Reachable.ask {s₀ : σ} {s : Server ρ σ ε α} (h : Reachable program accept world s₀ s)
    {r : ρ} (haccept : accept s r) : Reachable program accept world s₀ (s.ask program r) :=
  h.tail (.start haccept)

theorem Reachable.advance {s₀ : σ} {s : Server ρ σ ε α}
    (h : Reachable program accept world s₀ s) (order : List ℕ) :
    Reachable program accept world s₀ (order.foldl Server.advance s) := by
  induction order generalizing s with
  | nil => exact h
  | cons i order ih =>
      refine ih ?_
      unfold Server.advance
      split
      case h_1 r f k hnext => exact h.tail (.move hnext)
      case h_2 => exact h

end Steps

variable (G : Option (ℕ × ρ) → Trace ρ σ → σ → Prop)
  (Q : ℕ → ρ → α → Trace ρ σ → Prop)

/-- Every step was allowed, and what is left of every request is justified. -/
structure Sound (s₀ : σ) (s : Server ρ σ ε α) : Prop where
  lawful : Lawful G s₀ s.trace
  numbered : ∀ e ∈ s.trace.past, ∀ i r, e.actor = some (i, r) → i < s.requests.length
  justified : ∀ i r p, s.requests[i]? = some (r, p) →
    Justified G s₀ i r (Q i r) p s.trace

namespace Sound

variable {G Q} {s₀ : σ} {s : Server ρ σ ε α}

theorem others (hs : Sound G Q s₀ s) {i : ℕ} (hi : s.requests.length ≤ i) :
    Others G i ⟨s₀, []⟩ s.trace := by
  refine hs.lawful.of_idle fun e he r hactor => ?_
  exact absurd (hs.numbered e he i r hactor) (Nat.not_lt.mpr hi)

theorem answer (hs : Sound G Q s₀ s) {i : ℕ} {r : ρ} {a : α}
    (hfinished : s.requests[i]? = some (r, .ret a)) : Q i r a s.trace :=
  hs.justified i r _ hfinished _ (Others.refl _) hs.lawful

variable {program : ℕ → ρ → Request σ ε α} {accept : Server ρ σ ε α → ρ → Prop}
  {world : σ → σ → Prop}

theorem start (hs : Sound G Q s₀ s) {r : ρ}
    (hjustified : Justified G s₀ s.requests.length r (Q s.requests.length r)
      (program s.requests.length r) s.trace) :
    Sound G Q s₀ ⟨s.trace, s.requests ++ [(r, program s.requests.length r)]⟩ := by
  refine ⟨hs.lawful, fun e he i r' hactor => ?_, fun i r' p hget => ?_⟩
  · rw [List.length_append]
    exact Nat.lt_add_right _ (hs.numbered e he i r' hactor)
  · rw [List.getElem?_append] at hget
    split at hget
    case isTrue hlt => exact hs.justified i r' p hget
    case isFalse hlt =>
        obtain ⟨hzero, heq⟩ := List.getElem?_eq_some_iff.mp hget
        have hi : i = s.requests.length := by
          rw [List.length_singleton] at hzero
          omega
        rw [List.getElem_singleton] at heq
        obtain ⟨rfl, rfl⟩ := Prod.mk.inj heq
        subst hi
        exact hjustified

theorem push (hs : Sound G Q s₀ s) {actor : Option (ℕ × ρ)} {t : σ}
    (hallowed : G actor s.trace t) {j : ℕ} {r : ρ} {p : Request σ ε α}
    (hother : ∀ r', actor ≠ some (j, r')) (hget : s.requests[j]? = some (r, p)) :
    Justified G s₀ j r (Q j r) p (s.trace.push actor t) :=
  (hs.justified j r p hget).mono ((Others.refl _).push hother hallowed)

theorem move (hs : Sound G Q s₀ s) {i : ℕ} {r : ρ} {f : σ → σ} {k : σ → Request σ ε α}
    (hnext : s.requests[i]? = some (r, .step f k)) :
    Sound G Q s₀ ⟨s.trace.push (some (i, r)) (f s.trace.now),
      s.requests.set i (r, k s.trace.now)⟩ := by
  obtain ⟨hallowed, hrest⟩ :=
    hs.justified i r _ hnext s.trace (Others.refl _) hs.lawful
  have hi : i < s.requests.length := (List.getElem?_eq_some_iff.mp hnext).1
  refine ⟨hs.lawful.push hallowed, fun e he j r' hactor => ?_, fun j r' p hget => ?_⟩
  · rw [List.length_set]
    rcases List.mem_cons.mp he with rfl | he
    · obtain ⟨rfl, -⟩ := Prod.mk.inj (Option.some.inj hactor)
      exact hi
    · exact hs.numbered e he j r' hactor
  · rw [List.getElem?_set] at hget
    split at hget
    case isTrue hij =>
        subst hij
        obtain ⟨rfl, rfl⟩ := Prod.mk.inj (Option.some.inj hget)
        exact hrest
    case isFalse hij =>
        refine hs.push hallowed (fun r'' heq => hij ?_) hget
        exact (Prod.mk.inj (Option.some.inj heq)).1

theorem world_step (hs : Sound G Q s₀ s) {t : σ} (hallowed : G none s.trace t) :
    Sound G Q s₀ ⟨s.trace.push none t, s.requests⟩ := by
  refine ⟨hs.lawful.push hallowed, fun e he i r hactor => ?_, fun i r p hget => ?_⟩
  · rcases List.mem_cons.mp he with rfl | he
    · exact absurd hactor (Option.some_ne_none _).symm
    · exact hs.numbered e he i r hactor
  · exact hs.push hallowed (fun r' => (Option.some_ne_none _).symm) hget

theorem of_reachable
    (hprogram : ∀ s r, Sound G Q s₀ s → accept s r →
      Justified G s₀ s.requests.length r (Q s.requests.length r)
        (program s.requests.length r) s.trace)
    (hworld : ∀ h t, world h.now t → G none h t)
    (hreach : Reachable program accept world s₀ s) : Sound G Q s₀ s := by
  induction hreach with
  | refl => exact ⟨Lawful.start, fun e he => absurd he List.not_mem_nil, fun i r p hget => by
      rw [List.getElem?_nil] at hget
      exact absurd hget (Option.some_ne_none _).symm⟩
  | tail _ hstep ih =>
      cases hstep with
      | start haccept => exact ih.start (hprogram _ _ ih haccept)
      | move hnext => exact ih.move hnext
      | world h => exact ih.world_step (hworld _ _ h)

end Sound

end Server

end Nipa.Support
