import Nipa.Permissions
import Nipa.Support.VersionedCache
import Nipa.Support.Checks

/-!
# The cache of permission sets

A permission check loads the caller's rules, the defaults of the project and
whether the caller owns its organisation, and keeps the result for half a
minute.  Changes of rules, defaults and group members, and the removal of a
member from an organisation, drop every kept result after their write; giving a
member a role does not, and shows when the kept result expires.

Whether the caller of a change is an administrator of the project or owns the
organisation is an input, as is a free seat.  Each query of a call reads the
tables at some instant; the versions of the cache never wrap around.  A check
for another account than the caller's reads the tables and keeps nothing; it is
left out.
-/

namespace Nipa

open Support

/-! ## Tables -/

inductive OrgRole where
  | owner
  | member
  deriving DecidableEq

/-- A rule row: its subject is a user or a group; without a project it holds for
every project of the organisation. -/
structure AccessRule where
  id : ID
  userID : Option ID
  groupID : Option ID
  orgID : ID
  projectID : Option ID
  pathPrefix : Str
  permission : PermissionMask
  deriving DecidableEq

structure OrgMember where
  orgID : ID
  userID : ID
  role : OrgRole
  deriving DecidableEq

/-- What permissions are read from; rules are in the order of their ids. -/
structure AccessTables where
  users : List ID
  projects : List (ID × ID)
  groups : List (ID × ID)
  groupMembers : List (ID × ID)
  rules : List AccessRule
  defaults : List (ID × ProjectPathPermission)
  orgMembers : List OrgMember

namespace AccessTables

def projectOrgID (t : AccessTables) (projectID : ID) : Option ID :=
  (t.projects.find? fun p => p.1 = projectID).map Prod.snd

def groupOrgID (t : AccessTables) (groupID : ID) : Option ID :=
  (t.groups.find? fun g => g.1 = groupID).map Prod.snd

/-- The rules of a user in a project, given to the user or to a group. -/
def listEffectiveRules (t : AccessTables) (projectID userID : ID) : List PBACRule :=
  (t.rules.filter fun r =>
    (r.projectID = some projectID ||
      (r.projectID = none && t.projectOrgID projectID = some r.orgID)) &&
    (r.userID = some userID || r.groupID.any fun g =>
      (g, userID) ∈ t.groupMembers && t.groupOrgID g = some r.orgID)).map
    fun r => ⟨r.pathPrefix, r.permission⟩

def listPathPermissions (t : AccessTables) (projectID : ID) : List ProjectPathPermission :=
  ((t.defaults.filter fun d => d.1 = projectID).map Prod.snd).insertionSort
    fun d d' => d.pathPrefix ≤ d'.pathPrefix

def memberRole (t : AccessTables) (orgID userID : ID) : Option OrgRole :=
  (t.orgMembers.find? fun m => m.orgID = orgID && m.userID = userID).map OrgMember.role

def isOrgOwner (t : AccessTables) (orgID userID : ID) : Bool :=
  t.memberRole orgID userID = some .owner

def countOwners (t : AccessTables) (orgID : ID) : ℕ :=
  (t.orgMembers.filter fun m => m.orgID = orgID && m.role = .owner).length

def getRuleForProject (t : AccessTables) (projectID ruleID : ID) : Option AccessRule :=
  t.rules.find? fun r => r.id = ruleID &&
    (r.projectID = some projectID ||
      (r.projectID = none && t.projectOrgID projectID = some r.orgID))

def upsertMember (t : AccessTables) (orgID userID : ID) (role : OrgRole) : AccessTables :=
  { t with
    orgMembers :=
      if ∃ m ∈ t.orgMembers, m.orgID = orgID ∧ m.userID = userID then
        t.orgMembers.map fun m =>
          if m.orgID = orgID ∧ m.userID = userID then { m with role := role } else m
      else t.orgMembers ++ [⟨orgID, userID, role⟩] }

def upsertPathPermission (t : AccessTables) (projectID : ID) (d : ProjectPathPermission) :
    AccessTables :=
  { t with
    defaults :=
      if ∃ x ∈ t.defaults, x.1 = projectID ∧ x.2.pathPrefix = d.pathPrefix then
        t.defaults.map fun x =>
          if x.1 = projectID ∧ x.2.pathPrefix = d.pathPrefix then (projectID, d) else x
      else t.defaults ++ [(projectID, d)] }

end AccessTables

/-! ## Changes -/

/-- Who asks for a change, and whether there is a seat for its subject. -/
structure AccessCaller where
  projectAdmin : ID → Bool
  orgOwner : ID → Bool
  seat : Except DomainError Unit

def errRecordNotFound : DomainError := errNotFound "record not found" []

def PermissionMask.isValid (permission : PermissionMask) : Bool :=
  permission &&& ~~~permissionAll = 0

def orgRole (role : Str) : Except DomainError OrgRole :=
  if role = "owner".toList then .ok .owner
  else if role = "member".toList then .ok .member
  else .error (errUser "invalid org role" [])

def cleanPrefix (pathPrefix : Str) : Except DomainError Str :=
  orError (normalizePathPrefix pathPrefix)
    (errUser "invalid path prefix %q: must not contain a .. segment" [pathPrefix])

section Changes

variable (seen : ℕ → AccessTables) (now : AccessTables) (caller : AccessCaller)

def createRule (rule : AccessRule) : Except DomainError AccessTables := do
  match rule.projectID with
  | some projectID => refuseIf (caller.projectAdmin projectID = false) errNoPermission
  | none => refuseIf (caller.orgOwner rule.orgID = false) errNoPermission
  refuseIf (rule.userID.isNone = rule.groupID.isNone)
    (errUser "rule must target exactly one user or group" [])
  refuseIf (rule.permission = 0) (errUser "rule permission must not be empty" [])
  refuseIf (rule.permission.isValid = false) (errUser "invalid rule permission" [])
  let pathPrefix ← cleanPrefix rule.pathPrefix
  match rule.userID with
  | some userID => refuseIf (userID ∉ (seen 0).users) (errUser "user not found" [])
  | none => pure ()
  match rule.groupID with
  | some groupID =>
      refuseIf ((seen 1).groupOrgID groupID ≠ some rule.orgID) (errUser "group not found" [])
  | none => pure ()
  if rule.userID.isSome then caller.seat
  return { now with rules := now.rules ++ [{ rule with pathPrefix := pathPrefix }] }

def deleteRule (projectID ruleID : ID) : Except DomainError AccessTables := do
  refuseIf (caller.projectAdmin projectID = false) errNoPermission
  let rule ← orError ((seen 0).getRuleForProject projectID ruleID) errRecordNotFound
  if rule.projectID = none then refuseIf (caller.orgOwner rule.orgID = false) errNoPermission
  let _ ← orError (now.getRuleForProject projectID ruleID) errRecordNotFound
  return { now with rules := now.rules.filter fun r => r.id ≠ ruleID }

def setPathPermission (projectID : ID) (pathPrefix : Str) (permission : PermissionMask) :
    Except DomainError AccessTables := do
  refuseIf (caller.projectAdmin projectID = false) errNoPermission
  refuseIf (permission.isValid = false) (errUser "invalid permission" [])
  let pathPrefix ← cleanPrefix pathPrefix
  return now.upsertPathPermission projectID ⟨pathPrefix, permission⟩

def deletePathPermission (projectID : ID) (pathPrefix : Str) :
    Except DomainError AccessTables := do
  refuseIf (caller.projectAdmin projectID = false) errNoPermission
  let pathPrefix ← cleanPrefix pathPrefix
  return { now with
    defaults := now.defaults.filter fun d => !(d.1 = projectID && d.2.pathPrefix = pathPrefix) }

def groupInOrg (orgID groupID : ID) : Except DomainError Unit := do
  let org ← orError ((seen 0).groupOrgID groupID) errRecordNotFound
  refuseIf (org ≠ orgID) (errNotFound "group not found" [])

def addGroupMember (orgID groupID userID : ID) : Except DomainError AccessTables := do
  refuseIf (caller.orgOwner orgID = false) errNoPermission
  groupInOrg seen orgID groupID
  caller.seat
  return { now with
    groupMembers :=
      if (groupID, userID) ∈ now.groupMembers then now.groupMembers
      else now.groupMembers ++ [(groupID, userID)] }

def removeGroupMember (orgID groupID userID : ID) : Except DomainError AccessTables := do
  refuseIf (caller.orgOwner orgID = false) errNoPermission
  groupInOrg seen orgID groupID
  return { now with groupMembers := now.groupMembers.filter fun m => m ≠ (groupID, userID) }

/-- An organisation keeps an owner. -/
def ensureNotLastOwner (orgID userID : ID) : Except DomainError Unit :=
  if (seen 0).memberRole orgID userID = some .owner then
    refuseIf ((seen 1).countOwners orgID ≤ 1)
      (errConflict "organization must keep at least one owner" [])
  else .ok ()

def addOrgMember (orgID userID : ID) (role : Str) : Except DomainError AccessTables := do
  refuseIf (caller.orgOwner orgID = false) errNoPermission
  let role ← orgRole role
  if role = .member then ensureNotLastOwner seen orgID userID
  caller.seat
  return now.upsertMember orgID userID role

def updateMemberRole (orgID userID : ID) (role : Str) : Except DomainError AccessTables := do
  refuseIf (caller.orgOwner orgID = false) errNoPermission
  let role ← orgRole role
  if role = .member then ensureNotLastOwner seen orgID userID
  return now.upsertMember orgID userID role

/-- A member leaves with its rules and its places in the groups. -/
def removeOrgMember (orgID userID : ID) : Except DomainError AccessTables := do
  refuseIf (caller.orgOwner orgID = false) errNoPermission
  ensureNotLastOwner seen orgID userID
  return { now with
    orgMembers := now.orgMembers.filter fun m => !(m.orgID = orgID && m.userID = userID)
    rules := now.rules.filter fun r => !(r.userID = some userID && r.orgID = orgID)
    groupMembers := now.groupMembers.filter fun m =>
      !(m.2 = userID && now.groupOrgID m.1 = some orgID) }

end Changes

inductive AccessChange where
  | createRule (rule : AccessRule)
  | deleteRule (projectID ruleID : ID)
  | setPathPermission (projectID : ID) (pathPrefix : Str) (permission : PermissionMask)
  | deletePathPermission (projectID : ID) (pathPrefix : Str)
  | addGroupMember (orgID groupID userID : ID)
  | removeGroupMember (orgID groupID userID : ID)
  | addOrgMember (orgID userID : ID) (role : Str)
  | updateMemberRole (orgID userID : ID) (role : Str)
  | removeOrgMember (orgID userID : ID)

namespace AccessChange

/-- The tables after a change, from what its checks saw and the tables it writes. -/
def run (seen : ℕ → AccessTables) (now : AccessTables) (caller : AccessCaller) :
    AccessChange → Except DomainError AccessTables
  | .createRule rule => Nipa.createRule seen now caller rule
  | .deleteRule projectID ruleID => Nipa.deleteRule seen now caller projectID ruleID
  | .setPathPermission projectID pathPrefix permission =>
      Nipa.setPathPermission now caller projectID pathPrefix permission
  | .deletePathPermission projectID pathPrefix =>
      Nipa.deletePathPermission now caller projectID pathPrefix
  | .addGroupMember orgID groupID userID => Nipa.addGroupMember seen now caller orgID groupID userID
  | .removeGroupMember orgID groupID userID =>
      Nipa.removeGroupMember seen now caller orgID groupID userID
  | .addOrgMember orgID userID role => Nipa.addOrgMember seen now caller orgID userID role
  | .updateMemberRole orgID userID role => Nipa.updateMemberRole seen now caller orgID userID role
  | .removeOrgMember orgID userID => Nipa.removeOrgMember seen now caller orgID userID

/-- Whether the call drops the kept sets after its write. -/
def invalidates : AccessChange → Bool
  | .addOrgMember .. => false
  | .updateMemberRole .. => false
  | _ => true

end AccessChange

/-! ## Checks -/

/-- What the queries of a load return. -/
inductive AccessRead where
  | rules (l : List PBACRule)
  | defaults (l : List ProjectPathPermission)
  | org (orgID : Option ID)
  | owner (b : Bool)

def permissionCacheTTL : ℕ := 30

/-- A project without a row has no owner. -/
def accessSpec : CacheSpec AccessTables AccessRead (ID × ID) ID where
  next := fun key values =>
    match values with
    | [] => some fun t => .rules (t.listEffectiveRules key.1 key.2)
    | [_] => some fun t => .defaults (t.listPathPermissions key.1)
    | [_, _] => some fun t => .org (t.projectOrgID key.1)
    | [_, _, .org (some orgID)] => some fun t => .owner (t.isOrgOwner orgID key.2)
    | _ => none
  group := Prod.fst
  ttl := permissionCacheTTL

/-- The set made of the values of a load. -/
def permissionSetOf : List AccessRead → PermissionSet
  | [.rules rules, .defaults defaults, _, .owner owner] => ⟨rules, defaults, owner⟩
  | [.rules rules, .defaults defaults, _] => ⟨rules, defaults, false⟩
  | _ => ⟨[], [], false⟩

abbrev AccessState := CacheState AccessTables AccessRead (ID × ID) ID

/-- Checks and changes in any order; each query of a change sees the tables at some
instant before its write. -/
inductive AccessStep : AccessState → CacheEvent AccessTables → AccessState → Prop where
  | load {s s' : AccessState} (h : LoadStep accessSpec s s') : AccessStep s .other s'
  | write {s : AccessState} {i : ℕ} {change : AccessChange} {caller : AccessCaller}
      {seen : ℕ → AccessTables} {t : AccessTables} (hfree : s.calls i = none)
      (hseen : ∀ n, ∃ m ≤ s.written, seen n = s.worlds m)
      (hchange : change.run seen s.world caller = .ok t) (hinv : change.invalidates = true) :
      AccessStep s .other ((s.write t).setCall i (some (.invalidating (s.written + 1))))
  | invalidate {s : AccessState} {i n : ℕ} (hcall : s.calls i = some (.invalidating n)) :
      AccessStep s .other ((s.invalidateAll.settle n false).setCall i none)
  | quiet {s : AccessState} {change : AccessChange} {caller : AccessCaller}
      {seen : ℕ → AccessTables} {t : AccessTables}
      (hseen : ∀ n, ∃ m ≤ s.written, seen n = s.worlds m)
      (hchange : change.run seen s.world caller = .ok t) (hinv : change.invalidates = false) :
      AccessStep s (.quiet t) ((s.write t).settle (s.written + 1) true)

theorem AccessStep.cacheStep {s s' : AccessState} {e : CacheEvent AccessTables}
    (h : AccessStep s e s') : CacheStep accessSpec s e s' := by
  cases h with
  | load h => exact .load h
  | write hfree hseen hchange hinv => exact .write _ hfree
  | invalidate hcall => exact .invalidate hcall
  | quiet hseen hchange hinv => exact .quiet _

/-- One member of an organisation is given a role. -/
def GivesRole (t t' : AccessTables) : Prop :=
  ∃ orgID userID role, t' = t.upsertMember orgID userID role

theorem AccessChange.givesRole {seen : ℕ → AccessTables} {now t : AccessTables}
    {caller : AccessCaller} {change : AccessChange}
    (hchange : change.run seen now caller = .ok t) (hinv : change.invalidates = false) :
    GivesRole now t := by
  cases change with
  | addOrgMember orgID userID role =>
      rw [run, Nipa.addOrgMember] at hchange
      obtain ⟨_, -, hchange⟩ := bind_eq_ok.mp hchange
      obtain ⟨role', -, hchange⟩ := bind_eq_ok.mp hchange
      refine ⟨orgID, userID, role', ?_⟩
      split at hchange
      · simp only [bind_eq_ok, pure_eq_ok] at hchange
        obtain ⟨_, -, _, -, heq⟩ := hchange
        exact heq.symm
      · simp only [bind_eq_ok, pure_eq_ok] at hchange
        obtain ⟨_, -, heq⟩ := hchange
        exact heq.symm
  | updateMemberRole orgID userID role =>
      rw [run, Nipa.updateMemberRole] at hchange
      obtain ⟨_, -, hchange⟩ := bind_eq_ok.mp hchange
      obtain ⟨role', -, hchange⟩ := bind_eq_ok.mp hchange
      refine ⟨orgID, userID, role', ?_⟩
      split at hchange
      · simp only [bind_eq_ok, pure_eq_ok] at hchange
        obtain ⟨_, -, heq⟩ := hchange
        exact heq.symm
      · exact (pure_eq_ok.mp hchange).symm
  | _ => cases hinv

/-! ## Freshness -/

/-- A value the query returned at some instant; of the settled changes that matter
to the query only excused ones come after. -/
def ReadSince (s : AccessState) (settled : List Settled) (excused : Settled → Prop) {V : Type}
    (q : AccessTables → V) (v : V) : Prop :=
  ∃ n ≤ s.written, v = q (s.worlds n) ∧
    ∀ c ∈ settled, q (s.worlds c.change) ≠ q (s.worlds (c.change - 1)) →
      c.change ≤ n ∨ excused c

def NoneExcused (_ : Settled) : Prop := False

/-- A set none of whose parts was read before a settled change of it; what it says
about the owner may be excused. -/
structure SetSince (s : AccessState) (settled : List Settled) (excused : Settled → Prop)
    (projectID userID : ID) (set : PermissionSet) : Prop where
  rules : ReadSince s settled NoneExcused (fun t => t.listEffectiveRules projectID userID)
    set.rules
  defaults : ReadSince s settled NoneExcused (fun t => t.listPathPermissions projectID)
    set.defaults
  owner : (ReadSince s settled NoneExcused (fun t => t.projectOrgID projectID) none ∧
      set.orgOwner = false) ∨
    ∃ orgID, ReadSince s settled NoneExcused (fun t => t.projectOrgID projectID) (some orgID) ∧
      ReadSince s settled excused (fun t => t.isOrgOwner orgID userID) set.orgOwner

/-- A member was given a role, less than the life of a kept set before `now`. -/
def RoleJustGiven (s : AccessState) (now : ℕ) (c : Settled) : Prop :=
  GivesRole (s.worlds (c.change - 1)) (s.worlds c.change) ∧ now < c.time + permissionCacheTTL

section Freshness

variable {s : AccessState} {now : ℕ} {settled : List Settled} {projectID userID : ID}

/-- A finished load has read the rules, the defaults and the organisation, and the
owner when there is an organisation. -/
theorem soundAnswer_shape {reads : List (CacheRead AccessTables AccessRead)}
    (h : s.SoundAnswer accessSpec (projectID, userID) reads) :
    ∃ a b c, a ∈ reads ∧ b ∈ reads ∧ c ∈ reads ∧
      a.query = (fun t => .rules (t.listEffectiveRules projectID userID)) ∧
      b.query = (fun t => .defaults (t.listPathPermissions projectID)) ∧
      c.query = (fun t => .org (t.projectOrgID projectID)) ∧
      ((reads = [a, b, c] ∧ c.value = .org none) ∨ ∃ d orgID, reads = [a, b, c, d] ∧
        c.value = .org (some orgID) ∧
        d.query = fun t => .owner (t.isOrgOwner orgID userID)) := by
  have hnext := fun i hi => h.queried.next_take (i := i) hi
  have hdone := h.complete
  have hvalue := h.value_eq
  rcases reads with _ | ⟨a, _ | ⟨b, _ | ⟨c, rest⟩⟩⟩
  · cases hdone
  · cases hdone
  · cases hdone
  have ha := (Option.some.inj (hnext 0 (by simp))).symm
  have hb := (Option.some.inj (hnext 1 (by simp))).symm
  have hc := (Option.some.inj (hnext 2 (by simp))).symm
  have hcvalue : c.value = .org ((s.worlds c.seen).projectOrgID projectID) := by
    rw [hvalue c (by simp), show c.query = _ from hc]
  refine ⟨a, b, c, by simp, by simp, by simp, ha, hb, hc, ?_⟩
  rcases rest with _ | ⟨d, more⟩
  · refine Or.inl ⟨rfl, ?_⟩
    rw [hcvalue]
    rcases horg : (s.worlds c.seen).projectOrgID projectID with _ | orgID
    · rfl
    · rw [horg] at hcvalue
      simp [accessSpec, hcvalue] at hdone
  have hd := hnext 3 (by simp)
  rcases horg : (s.worlds c.seen).projectOrgID projectID with _ | orgID
  · rw [horg] at hcvalue
    simp [accessSpec, hcvalue] at hd
  rw [horg] at hcvalue
  rcases more with _ | ⟨e, more⟩
  · refine Or.inr ⟨d, orgID, rfl, hcvalue, ?_⟩
    simpa [accessSpec, hcvalue] using hd.symm
  · have he := hnext 4 (by simp)
    simp [accessSpec] at he

theorem readSince {key : ID × ID} {reads : List (CacheRead AccessTables AccessRead)}
    (hsound : s.SoundAnswer accessSpec key reads)
    (hfresh : s.FreshAnswer permissionCacheTTL now settled reads)
    {r : CacheRead AccessTables AccessRead} (hr : r ∈ reads) {V : Type} {q : AccessTables → V}
    {wrap : V → AccessRead} (hwrap : Function.Injective wrap)
    (hquery : r.query = fun t => wrap (q t)) {v : V} (hv : r.value = wrap v) :
    ReadSince s settled (CacheState.Recent permissionCacheTTL now) q v := by
  refine ⟨r.seen, hsound.seen_le r hr, ?_, ?_⟩
  · apply hwrap
    rw [← hv, hsound.value_eq r hr, hquery]
  · intro c hc hmatters
    refine hfresh c hc r hr ?_
    rw [CacheState.Matters, hquery]
    intro heq
    exact hmatters (hwrap heq)

theorem ReadSince.of_recent {V : Type} {q : AccessTables → V} {v : V}
    {excused : Settled → Prop}
    (h : ReadSince s settled (CacheState.Recent permissionCacheTTL now) q v)
    (hexcused : ∀ c ∈ settled, CacheState.Recent permissionCacheTTL now c →
      q (s.worlds c.change) ≠ q (s.worlds (c.change - 1)) → excused c) :
    ReadSince s settled excused q v := by
  obtain ⟨n, hn, hv, hlate⟩ := h
  refine ⟨n, hn, hv, ?_⟩
  intro c hc hmatters
  rcases hlate c hc hmatters with hseen | hrecent
  · exact Or.inl hseen
  · exact Or.inr (hexcused c hc hrecent hmatters)

structure AccessInv (s : AccessState) : Prop where
  cache : s.Inv accessSpec
  roles : s.QuietAre GivesRole

theorem AccessInv.step {s s' : AccessState} {e : CacheEvent AccessTables} (h : AccessInv s)
    (hstep : AccessStep s e s') : AccessInv s' := by
  refine ⟨h.cache.step hstep.cacheStep, h.roles.step h.cache ?_ hstep.cacheStep⟩
  rintro w rfl
  cases hstep with
  | quiet hseen hchange hinv => exact AccessChange.givesRole hchange hinv

/-- In every run, no check answers from what was read before a change that was
complete when the check began, but for one: what it says about the owner may come
from before a role that was given less than the life of a kept set ago. -/
theorem permission_cache_fresh {s₀ : AccessState} (hfresh : s₀.Fresh)
    (hrun : Run AccessStep (fun _ _ => True) s₀ s) {i : ℕ}
    {reads : List (CacheRead AccessTables AccessRead)}
    (hanswer : s.calls i = some (.answered (projectID, userID) now settled reads)) :
    SetSince s settled (RoleJustGiven s now) projectID userID
      (permissionSetOf (reads.map CacheRead.value)) := by
  have hinv : AccessInv s := hrun.invariant ⟨hfresh.inv, hfresh.quietAre GivesRole⟩
    fun _ _ _ h _ hstep => AccessInv.step h hstep
  obtain ⟨hsound, hfreshAnswer, hsub⟩ := hinv.cache.answer_fresh hanswer
  have hrole : ∀ c ∈ settled, CacheState.Recent permissionCacheTTL now c →
      RoleJustGiven s now c :=
    fun c hc hrecent => ⟨hinv.roles c (hsub c hc) hrecent.1, hrecent.2⟩
  -- a role does not matter to rules, defaults and organisations
  have hkept : ∀ {V : Type} {q : AccessTables → V} {v : V},
      (∀ t orgID userID role, q (t.upsertMember orgID userID role) = q t) →
      ReadSince s settled (CacheState.Recent permissionCacheTTL now) q v →
      ReadSince s settled NoneExcused q v := by
    intro V q v hsame hread
    refine hread.of_recent fun c hc hrecent hmatters => ?_
    obtain ⟨⟨orgID, userID, role, heq⟩, -⟩ := hrole c hc hrecent
    rw [heq] at hmatters
    exact hmatters (hsame _ _ _ _)
  obtain ⟨a, b, c, ha, hb, hc, hqa, hqb, hqc, hshape⟩ := soundAnswer_shape hsound
  have hva : a.value = .rules ((s.worlds a.seen).listEffectiveRules projectID userID) := by
    rw [hsound.value_eq a ha, hqa]
  have hvb : b.value = .defaults ((s.worlds b.seen).listPathPermissions projectID) := by
    rw [hsound.value_eq b hb, hqb]
  have hrules : ReadSince s settled NoneExcused
      (fun t => t.listEffectiveRules projectID userID) _ := hkept (fun _ _ _ _ => rfl)
    (readSince hsound hfreshAnswer ha (fun _ _ h => AccessRead.rules.inj h) hqa hva)
  have hdefaults : ReadSince s settled NoneExcused
      (fun t => t.listPathPermissions projectID) _ := hkept (fun _ _ _ _ => rfl)
    (readSince hsound hfreshAnswer hb (fun _ _ h => AccessRead.defaults.inj h) hqb hvb)
  have horg : ∀ v, c.value = .org v →
      ReadSince s settled NoneExcused (fun t => t.projectOrgID projectID) v :=
    fun v hv => hkept (fun _ _ _ _ => rfl)
      (readSince hsound hfreshAnswer hc (fun _ _ h => AccessRead.org.inj h) hqc hv)
  rcases hshape with ⟨rfl, hnoOrg⟩ | ⟨d, orgID, rfl, hsome, hqd⟩
  · have hset : permissionSetOf ([a, b, c].map CacheRead.value) =
        ⟨(s.worlds a.seen).listEffectiveRules projectID userID,
          (s.worlds b.seen).listPathPermissions projectID, false⟩ := by
      simp only [List.map_cons, List.map_nil, hva, hvb, permissionSetOf]
    rw [hset]
    exact ⟨hrules, hdefaults, Or.inl ⟨horg none hnoOrg, rfl⟩⟩
  · have hd : d ∈ [a, b, c, d] := by simp
    have hvd : d.value = .owner ((s.worlds d.seen).isOrgOwner orgID userID) := by
      rw [hsound.value_eq d hd, hqd]
    have howner := (readSince hsound hfreshAnswer hd (fun _ _ h => AccessRead.owner.inj h) hqd
      hvd).of_recent fun c hc hrecent _ => hrole c hc hrecent
    have hset : permissionSetOf ([a, b, c, d].map CacheRead.value) =
        ⟨(s.worlds a.seen).listEffectiveRules projectID userID,
          (s.worlds b.seen).listPathPermissions projectID,
          (s.worlds d.seen).isOrgOwner orgID userID⟩ := by
      simp only [List.map_cons, List.map_nil, hva, hvb, hvd, permissionSetOf]
    rw [hset]
    exact ⟨hrules, hdefaults, Or.inr ⟨orgID, horg _ hsome, howner⟩⟩

end Freshness

def ownedTables : AccessTables :=
  ⟨[1, 2], [(1, 1)], [], [], [], [], [⟨1, 1, .owner⟩, ⟨1, 2, .owner⟩]⟩

def ownedState : AccessState :=
  ⟨fun _ => ownedTables, 0, [], 0, fun _ => none, fun _ => none, fun _ => none⟩

def orgOwnerCaller : AccessCaller := ⟨fun _ => true, fun _ => true, .ok ()⟩

theorem ownedState_fresh : ownedState.Fresh := ⟨rfl, fun _ => rfl, fun _ => rfl⟩

def artRule : AccessRule := ⟨1, some 2, none, 1, some 1, "art".toList, permissionRead⟩

def ruledTables : AccessTables := { ownedTables with rules := [artRule] }

/-- User 2 is checked, gets a rule and is made a member; a check that begins half a
minute later sees both. -/
theorem permission_cache_fresh_role :
    ∃ s reads, s.calls 1 = some (.answered (1, 2) 30 [⟨2, 0, true⟩, ⟨1, 0, false⟩] reads) ∧
      permissionSetOf (reads.map CacheRead.value) =
        ⟨[⟨"art".toList, permissionRead⟩], [], false⟩ ∧
      SetSince s [⟨2, 0, true⟩, ⟨1, 0, false⟩] (RoleJustGiven s 30) 1 2
        (permissionSetOf (reads.map CacheRead.value)) := by
  have hother : ∀ {s s' : AccessState}, Run AccessStep (fun _ _ => True) ownedState s →
      AccessStep s .other s' → Run AccessStep (fun _ _ => True) ownedState s' :=
    fun hrun h => hrun.tail (e := .other) trivial h
  have hload : ∀ {s s' : AccessState}, Run AccessStep (fun _ _ => True) ownedState s →
      LoadStep accessSpec s s' → Run AccessStep (fun _ _ => True) ownedState s' :=
    fun hrun h => hother hrun (AccessStep.load h)
  have hwrite := hother (Run.refl ownedState) (@AccessStep.write _ 0 (.createRule artRule)
    orgOwnerCaller (fun _ => ownedTables) ruledTables rfl (fun _ => ⟨0, le_rfl, rfl⟩) rfl rfl)
  -- the set is kept before the role is given
  have hdrop := hother hwrite (AccessStep.invalidate (i := 0) rfl)
  have hfirst := hload hdrop (LoadStep.start (i := 0) (1, 2) rfl)
  have hmiss := hload hfirst (LoadStep.miss (i := 0) rfl fun e he => by cases he.1)
  have hrules := hload hmiss (LoadStep.read (i := 0) rfl rfl)
  have hdefaults := hload hrules (LoadStep.read (i := 0) rfl rfl)
  have horg := hload hdefaults (LoadStep.read (i := 0) rfl rfl)
  have howner := hload horg (LoadStep.read (i := 0) rfl rfl)
  have hkeep := hload howner (LoadStep.keep (i := 0) rfl rfl rfl)
  have hdemote := hkeep.tail trivial (@AccessStep.quiet _ (.updateMemberRole 1 2
    "member".toList) orgOwnerCaller (fun _ => ruledTables) (ruledTables.upsertMember 1 2
    .member) (fun _ => ⟨1, le_rfl, rfl⟩) rfl rfl)
  -- and has expired when the second check begins
  have htick := hload hdemote (LoadStep.tick _ 30)
  have hsecond := hload htick (LoadStep.start (i := 1) (1, 2) rfl)
  have hmiss' := hload hsecond (LoadStep.miss (i := 1) rfl fun e he => by
    obtain ⟨hentry, -, hlive⟩ := he
    obtain rfl := Option.some.inj hentry
    exact absurd hlive (by decide))
  have hrules' := hload hmiss' (LoadStep.read (i := 1) rfl rfl)
  have hdefaults' := hload hrules' (LoadStep.read (i := 1) rfl rfl)
  have horg' := hload hdefaults' (LoadStep.read (i := 1) rfl rfl)
  have howner' := hload horg' (LoadStep.read (i := 1) rfl rfl)
  have hkeep' := hload howner' (LoadStep.keep (i := 1) rfl rfl rfl)
  exact ⟨_, _, rfl, rfl, permission_cache_fresh ownedState_fresh hkeep' (i := 1) rfl⟩

/-! ## A role that is taken away -/

def demotedTables : AccessTables := ownedTables.upsertMember 1 2 .member

def ownedReads : List (CacheRead AccessTables AccessRead) :=
  [⟨fun t => .rules (t.listEffectiveRules 1 2), .rules [], 0⟩,
    ⟨fun t => .defaults (t.listPathPermissions 1), .defaults [], 0⟩,
    ⟨fun t => .org (t.projectOrgID 1), .org (some 1), 0⟩,
    ⟨fun t => .owner (t.isOrgOwner 1 2), .owner true, 0⟩]

theorem owned_loaded {P : AccessState → CacheEvent AccessTables → Prop}
    (hP : ∀ s, P s .other) :
    ∃ s, Run AccessStep P ownedState s ∧ (∀ i, i ≠ 0 → s.calls i = none) ∧
      s.calls 0 = some (.answered (1, 2) 0 [] ownedReads) ∧
      s.cache (1, 2) = some ⟨30, 0, ownedReads⟩ ∧ s.version 1 = 0 ∧
      s.worlds = ownedState.worlds ∧ s.written = 0 ∧ s.clock = 0 ∧ s.settled = [] := by
  have hload : ∀ {s s' : AccessState}, Run AccessStep P ownedState s → LoadStep accessSpec s s' →
      Run AccessStep P ownedState s' := fun hrun h => hrun.tail (hP _) (AccessStep.load h)
  have hstart := hload (Run.refl ownedState) (LoadStep.start (i := 0) (1, 2) rfl)
  have hmiss := hload hstart (LoadStep.miss (i := 0) rfl fun e he => by cases he.1)
  have hrules := hload hmiss (LoadStep.read (i := 0) rfl rfl)
  have hdefaults := hload hrules (LoadStep.read (i := 0) rfl rfl)
  have horg := hload hdefaults (LoadStep.read (i := 0) rfl rfl)
  have howner := hload horg (LoadStep.read (i := 0) rfl rfl)
  have hkeep := hload howner (LoadStep.keep (i := 0) rfl rfl rfl)
  refine ⟨_, hkeep, ?_, rfl, rfl, rfl, rfl, rfl, rfl, rfl⟩
  intro i hi
  simp [CacheState.setCall, CacheState.put, CacheState.register, ownedState, hi]

/-- Another owner makes user 2 a member; a check of user 2 that begins afterwards
still answers from a set that says owner. -/
theorem demoted_owner_kept :
    ownedState.Fresh ∧
    updateMemberRole (fun _ => ownedTables) ownedTables orgOwnerCaller 1 2 "member".toList =
      .ok demotedTables ∧
    demotedTables.isOrgOwner 1 2 = false ∧
    ∃ s, Run AccessStep (fun _ _ => True) ownedState s ∧ s.worlds 1 = demotedTables ∧
      s.calls 1 = some (.answered (1, 2) 0 [⟨1, 0, true⟩] ownedReads) ∧
      (permissionSetOf (ownedReads.map CacheRead.value)).orgOwner = true ∧
      ¬ SetSince s [⟨1, 0, true⟩] NoneExcused 1 2
        (permissionSetOf (ownedReads.map CacheRead.value)) := by
  refine ⟨ownedState_fresh, rfl, rfl, ?_⟩
  obtain ⟨s, hrun, hcalls, -, hcache, hversion, hworlds, hwritten, hclock, hsettled⟩ :=
    owned_loaded (P := fun _ _ => True) fun _ => trivial
  have hworld : s.world = ownedTables := by
    rw [CacheState.world, hworlds]
    rfl
  have hdemote := hrun.tail trivial (@AccessStep.quiet s
    (.updateMemberRole 1 2 "member".toList) orgOwnerCaller (fun _ => s.world) demotedTables
    (fun _ => ⟨s.written, le_rfl, rfl⟩) (by rw [hworld]; rfl) rfl)
  have hstart := hdemote.tail trivial
    (AccessStep.load (LoadStep.start (i := 1) (1, 2) (hcalls 1 one_ne_zero)))
  have husable : CacheState.usable (((s.write demotedTables).settle (s.written + 1) true).setCall
      1 (some (.started (1, 2) s.clock (⟨s.written + 1, s.clock, true⟩ :: s.settled)))) accessSpec
      (1, 2) s.clock ⟨30, 0, ownedReads⟩ := by
    refine ⟨hcache, hversion.symm, ?_⟩
    rw [hclock]
    decide
  have hhit := hstart.tail trivial
    (AccessStep.load (LoadStep.hit (i := 1) (CacheState.setCall_calls_self ..) husable))
  have hworlds₀ : Function.update s.worlds (s.written + 1) demotedTables 0 = ownedTables := by
    rw [hwritten, hworlds]
    rfl
  have hworlds₁ : Function.update s.worlds (s.written + 1) demotedTables 1 = demotedTables := by
    rw [hwritten]
    rfl
  refine ⟨_, hhit, hworlds₁, ?_, rfl, ?_⟩
  · rw [CacheState.setCall_calls_self]
    change some (CacheCall.answered (1, 2) s.clock (⟨s.written + 1, s.clock, true⟩ :: s.settled)
      ownedReads) = _
    rw [hwritten, hclock, hsettled]
  · intro hsince
    have hworld : ∀ n ≤ s.written + 1,
        (Function.update s.worlds (s.written + 1) demotedTables n).projectOrgID 1 = some 1 := by
      intro n hn
      rcases (show n = 0 ∨ n = 1 by omega) with rfl | rfl
      · rw [hworlds₀]
        rfl
      · rw [hworlds₁]
        rfl
    rcases hsince.owner with ⟨⟨n, hn, horg, -⟩, -⟩ | ⟨orgID, ⟨n, hn, horg, -⟩, m, hm, howner, hold⟩
    · have hnone := horg.trans (hworld n hn)
      cases hnone
    · have hone : orgID = 1 := Option.some.inj (horg.trans (hworld n hn))
      subst hone
      rcases (show m = 0 ∨ m = 1 by change m ≤ s.written + 1 at hm; omega) with rfl | rfl
      · have hmatters := hold ⟨1, 0, true⟩ (List.mem_singleton_self _)
        change (Function.update s.worlds (s.written + 1) demotedTables 1).isOrgOwner 1 2 ≠
          (Function.update s.worlds (s.written + 1) demotedTables 0).isOrgOwner 1 2 → 1 ≤ 0 ∨ False
          at hmatters
        rw [hworlds₀, hworlds₁] at hmatters
        exact absurd (hmatters (by decide)) (by decide)
      · change true = (Function.update s.worlds (s.written + 1) demotedTables 1).isOrgOwner 1 2
          at howner
        rw [hworlds₁] at howner
        cases howner

end Nipa
