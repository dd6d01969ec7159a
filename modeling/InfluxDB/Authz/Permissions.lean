import Mathlib.Logic.Relation
import InfluxDB.Lib.Fallible

/-!
    Permissions and the tokens made from them.  A permission names an action, a resource type and,
    optionally, an organization and a resource; it matches others by its resource if it names one,
    else by its organization.  A caller may give a new token every permission it is allowed itself.
    Since a permission that names a resource forgets the organization it was admitted by, the token
    can then reach that resource outside of the organization.
-/

namespace InfluxDB.Authz

open Lib

/-- Actions, resource types and ids are only compared, so their types are left open. -/
structure Resource (τ ι : Type*) where
  type : τ
  id : Option ι
  orgID : Option ι
  deriving DecidableEq

structure Permission (α τ ι : Type*) where
  action : α
  resource : Resource τ ι
  deriving DecidableEq

variable {α τ ι : Type*} [DecidableEq α] [DecidableEq τ] [DecidableEq ι]

def Permission.matches (p perm : Permission α τ ι) : Bool :=
  if p.action ≠ perm.action then false
  else if p.resource.type ≠ perm.resource.type then false
  else match p.resource.orgID, p.resource.id with
    | none, none => true
    | some pOrgID, none => perm.resource.orgID == some pOrgID
    | _, some pID => perm.resource.id == some pID

def permissionAllowed (perm : Permission α τ ι) (ps : List (Permission α τ ι)) : Bool :=
  ps.any fun p => p.matches perm

/-- Whoever calls: it has permissions, and may be asked about a permission or not. -/
structure Authorizer (α τ ι : Type*) where
  admits : Permission α τ ι → Bool
  permissions : List (Permission α τ ι)

def Authorizer.allowed (a : Authorizer α τ ι) (p : Permission α τ ι) : Bool :=
  a.admits p && permissionAllowed p a.permissions

/-- An authorization answers while it is active. -/
def authorization (active : Bool) (permissions : List (Permission α τ ι)) : Authorizer α τ ι :=
  ⟨fun _ => active, permissions⟩

/-- A session answers until it has expired. -/
def session (expired : Bool) (permissions : List (Permission α τ ι)) : Authorizer α τ ι :=
  ⟨fun _ => !expired, permissions⟩

/-- A token answers for valid permissions. -/
def token (valid : Permission α τ ι → Bool) (permissions : List (Permission α τ ι)) : Authorizer α τ ι :=
  ⟨valid, permissions⟩

inductive AuthError (α τ ι : Type*) where
  /-- `authorizer not found on context`. -/
  | noAuthorizer
  /-- `%s is unauthorized`. -/
  | unauthorized (p : Permission α τ ι)
  /-- `permission %s is not allowed`. -/
  | forbidden (p : Permission α τ ι) (err : AuthError α τ ι)

variable (ctx : Option (Authorizer α τ ι))

def isAllowedAll (permissions : List (Permission α τ ι)) :
    Except (AuthError α τ ι) Unit :=
  match ctx with
  | none => .error .noAuthorizer
  | some a => forM permissions fun p => if a.allowed p then .ok () else .error (.unauthorized p)

def isAllowed (p : Permission α τ ι) : Except (AuthError α τ ι) Unit :=
  isAllowedAll ctx [p]

def verifyPermissions (ps : List (Permission α τ ι)) :
    Except (AuthError α τ ι) Unit :=
  forM ps fun p => (isAllowed ctx p).mapError (.forbidden p)

/-! ### What is checked -/

variable {ps : List (Permission α τ ι)}

theorem verifyPermissions_eq_ok {a : Authorizer α τ ι} :
    verifyPermissions (some a) ps = .ok () ↔ ∀ p ∈ ps, a.allowed p := by
  simp only [verifyPermissions, forM_eq_ok]
  refine forall₂_congr fun p _ => ?_
  have hone : isAllowed (some a) p = .ok () ↔ a.allowed p := by simp [isAllowed, isAllowedAll]
  rw [← hone]
  cases isAllowed (some a) p <;> simp [Except.mapError]

variable {r : Permission α τ ι}

theorem permissionAllowed_iff : permissionAllowed r ps ↔ ∃ p ∈ ps, p.matches r := by
  simp [permissionAllowed]

/-! ### What a token can reach -/

/-- Everything allowed by the first list is allowed by the second. -/
def Within (qs ps : List (Permission α τ ι)) : Prop := ∀ r, permissionAllowed r qs → permissionAllowed r ps

/-- The permission is for all resources of the other's type, or for the very resource the other names. -/
def Permission.Reaches (p q : Permission α τ ι) : Prop :=
  p.action = q.action ∧ p.resource.type = q.resource.type ∧
    (p.resource.orgID = none ∧ p.resource.id = none ∨ p.resource.id = q.resource.id)

/-- No permission that names a resource is covered by an organization alone. -/
def Covered (ps qs : List (Permission α τ ι)) : Prop :=
  ∀ q ∈ qs, q.resource.id ≠ none → ∃ p ∈ ps, p.Reaches q

variable {p q : Permission α τ ι}

/-- A permission that does not name a resource matches no more than what it is matched by. -/
theorem Permission.matches_trans (hpq : p.matches q) (hqr : q.matches r)
    (hid : q.resource.id = none) : p.matches r := by
  obtain ⟨a, t, i, o⟩ := p
  obtain ⟨a', t', i', o'⟩ := q
  cases i <;> cases o <;> cases o' <;> simp_all [Permission.matches]

theorem Permission.Reaches.matches (hpq : p.Reaches q) (hqr : q.matches r)
    (hid : q.resource.id ≠ none) : p.matches r := by
  obtain ⟨a, t, i, o⟩ := p
  obtain ⟨a', t', i', o'⟩ := q
  cases i <;> cases o <;> cases i' <;> simp_all [Permission.matches, Permission.Reaches]

/-- Asked without an organization, only a permission that reaches the resource matches it. -/
theorem Permission.reaches_of_matches
    (h : p.matches ⟨q.action, q.resource.type, q.resource.id, none⟩) : p.Reaches q := by
  obtain ⟨a, t, i, o⟩ := p
  cases i <;> cases o <;> simp_all [Permission.matches, Permission.Reaches]

theorem Permission.matches_of_id (hid : q.resource.id ≠ none) :
    q.matches ⟨q.action, q.resource.type, q.resource.id, none⟩ := by
  obtain ⟨a, t, i, o⟩ := q
  cases i <;> cases o <;> simp_all [Permission.matches]

variable {qs : List (Permission α τ ι)}

theorem Within.covered (h : Within qs ps) : Covered ps qs := by
  intro q hq hid
  obtain ⟨p, hp, hmatch⟩ :=
    permissionAllowed_iff.mp (h _ (permissionAllowed_iff.mpr ⟨q, hq, q.matches_of_id hid⟩))
  exact ⟨p, hp, Permission.reaches_of_matches hmatch⟩

theorem Covered.within (h : Covered ps qs) (hallowed : ∀ q ∈ qs, permissionAllowed q ps) : Within qs ps := by
  intro r hr
  obtain ⟨q, hq, hqr⟩ := permissionAllowed_iff.mp hr
  by_cases hid : q.resource.id = none
  · obtain ⟨p, hp, hpq⟩ := permissionAllowed_iff.mp (hallowed q hq)
    exact permissionAllowed_iff.mpr ⟨p, hp, Permission.matches_trans hpq hqr hid⟩
  · obtain ⟨p, hp, hreach⟩ := h q hq hid
    exact permissionAllowed_iff.mpr ⟨p, hp, hreach.matches hqr hid⟩

/-- A caller with the first permissions may create a token with the second. -/
def Creates (ps qs : List (Permission α τ ι)) : Prop :=
  ∃ a : Authorizer α τ ι, a.permissions = ps ∧ verifyPermissions (some a) qs = .ok ()

theorem Creates.allowed (h : Creates ps qs) : ∀ q ∈ qs, permissionAllowed q ps := by
  obtain ⟨a, rfl, hverify⟩ := h
  intro q hq
  exact (Bool.and_eq_true_iff.mp (verifyPermissions_eq_ok.mp hverify q hq)).2

/-- A token stays within its creator exactly if no resource it names is covered by an organization
alone; along a chain of tokens that are created so, the last stays within the first caller. -/
theorem token_within_iff_covered :
    (∀ ps qs : List (Permission α τ ι), Creates ps qs → (Within qs ps ↔ Covered ps qs)) ∧
      ∀ ps qs : List (Permission α τ ι),
        Relation.ReflTransGen (fun ps qs => Creates ps qs ∧ Covered ps qs) ps qs → Within qs ps := by
  refine ⟨fun ps qs h => ⟨Within.covered, fun hcov => hcov.within h.allowed⟩, fun ps qs hchain => ?_⟩
  induction hchain with
  | refl => exact fun r hr => hr
  | tail _ hstep ih => exact fun r hr => ih r (hstep.2.within hstep.1.allowed r hr)

/-- A token for a bucket of the caller's organization is allowed the bucket in any organization. -/
theorem bucket_token_leaves_organization :
    let caller : List (Permission String String ℕ) := [⟨"read", "buckets", none, some 1⟩]
    let new : List (Permission String String ℕ) := [⟨"read", "buckets", some 7, some 1⟩]
    verifyPermissions (some (authorization true caller)) new = .ok () ∧
      permissionAllowed ⟨"read", "buckets", some 7, some 2⟩ new = true ∧
      permissionAllowed ⟨"read", "buckets", some 7, some 2⟩ caller = false :=
  ⟨rfl, by decide, by decide⟩

end InfluxDB.Authz
