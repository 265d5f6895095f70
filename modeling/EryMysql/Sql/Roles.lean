import EryMysql.Lib.DepthFirst

/-!
# Roles

The global privileges of roles in sql/sql_acl.cc. A role can be granted to a role; the privileges
of a role are its own ones and those of the roles that it was granted. `propagate_role_grants`
brings the roles up to date that depend on a role whose privileges have changed, in two traversals
of the graph: the first one counts, the second one merges.

Privileges on databases, tables and routines are merged by the same traversal; here they are only
an answer to the question whether they have changed.
-/

namespace Sql

open DepthFirst Function

variable {N : Type} [Fintype N] [DecidableEq N]

/-- Users and roles, with the fields of `ACL_ROLE`. -/
structure Acl (N : Type) where
  isRole : N -> Bool
  access : N -> BitVec 64
  initialRoleAccess : N -> BitVec 64
  counter : N -> Nat
  roleGrants : N -> List N
  parentGrantee : N -> List N

namespace Acl

def initRoleForMerging (role : N) (s : Acl N) : Acl N :=
  { s with counter := update s.counter role 0 }

def countSubgraphNodes (_role grantee : N) (s : Acl N) : Bool × Acl N :=
  (false, { s with counter := update s.counter grantee (s.counter grantee + 1) })

variable (s : Acl N)

/-- The privileges of a role from its own ones and the roles that were granted to it. -/
def mergedAccess (grantee : N) : BitVec 64 :=
  (s.roleGrants grantee).foldl (fun access r => access ||| s.access r) (s.initialRoleAccess grantee)

def mergeRoleGlobalPrivileges (grantee : N) : Bool × Acl N :=
  (s.access grantee ≠ s.mergedAccess grantee,
    { s with access := update s.access grantee (s.mergedAccess grantee) })

variable (others : N -> Bool)

/-- `others` are the roles whose privileges on databases, tables and routines are changed by the
merge of these. -/
def mergeRolePrivileges (_role grantee : N) (s : Acl N) : Bool × Acl N :=
  let s := { s with counter := update s.counter grantee (s.counter grantee - 1) }
  if s.counter grantee ≠ 0 then (true, s)
  else
    let (changed, s) := s.mergeRoleGlobalPrivileges grantee
    (!(changed || others grantee), s)

/-- From a role to its grantees; users are passed over. -/
def up (onNode : N -> Acl N -> Acl N) (onEdge : N -> N -> Acl N -> Bool × Acl N) :
    Visitor N (Acl N) where
  next role := (s.parentGrantee role).filter s.isRole
  onNode
  onEdge

/-- From a role to the roles that were granted to it. -/
def down : Visitor N (Acl N) where
  next role := (s.roleGrants role).filter s.isRole
  onNode _ s := s
  onEdge _ _ s := (false, s)

def traverseRoleGraphUp (role : N) (onNode : N -> Acl N -> Acl N)
    (onEdge : N -> N -> Acl N -> Bool × Acl N) : Option (Bool × Acl N) :=
  (s.up onNode onEdge).walk (s.up onNode onEdge).enough ((s.up onNode onEdge).start role s)

def traverseRoleGraphDown (role : N) : Option (Bool × Acl N) :=
  s.down.walk s.down.enough (s.down.start role s)

def propagateRoleGrants (s : Acl N) (role : N) : Option (Acl N) := do
  let (_, s) ← s.traverseRoleGraphUp role initRoleForMerging countSubgraphNodes
  let (_, s) ← s.traverseRoleGraphUp role (fun _ s => s) (mergeRolePrivileges others)
  some s

def aclUpdateRole (role : N) (privileges : BitVec 64) : Acl N :=
  { s with
    initialRoleAccess := update s.initialRoleAccess role privileges
    access := update s.access role privileges }

def mergeOneRolePrivileges (s : Acl N) (grantee : N) : Bool × Acl N :=
  mergeRolePrivileges others grantee grantee
    { s with counter := update s.counter grantee 1 }

def addRoleUserMapping (grantee role : N) : Acl N :=
  { s with
    roleGrants := update s.roleGrants grantee (s.roleGrants grantee ++ [role])
    parentGrantee := update s.parentGrantee role (s.parentGrantee role ++ [grantee]) }

def undoAddRoleUserMapping (grantee role : N) : Acl N :=
  { s with
    roleGrants := update s.roleGrants grantee (s.roleGrants grantee).dropLast
    parentGrantee := update s.parentGrantee role (s.parentGrantee role).dropLast }

def removeRoleUserMapping (grantee role : N) : Acl N :=
  { s with
    roleGrants := update s.roleGrants grantee ((s.roleGrants grantee).erase role)
    parentGrantee := update s.parentGrantee role ((s.parentGrantee role).erase grantee) }

/-- The end of `mysql_grant_role`, for a grantee that is a role. -/
def mergeAndPropagate (s : Acl N) (grantee : N) : Option (Acl N) :=
  let (unchanged, s) := s.mergeOneRolePrivileges others grantee
  if unchanged = false then s.propagateRoleGrants others grantee else some s

end Acl

/-- The statements: the global privileges of a role are set, or a role is granted to or revoked
from a role. -/
inductive RoleOp (N : Type)
  | update (role : N) (privileges : BitVec 64)
  | grant (role grantee : N) (others : N -> Bool)
  | revoke (role grantee : N) (others : N -> Bool)

namespace Acl

/-- `none` if a traversal does not end. A grant that would close a cycle, or a statement about what
is not a role, is refused. -/
def apply (s : Acl N) : RoleOp N -> Option (Acl N)
  | .update role privileges =>
    if s.isRole role then (s.aclUpdateRole role privileges).propagateRoleGrants (fun _ => false) role
    else some s
  | .grant role grantee others =>
    if s.isRole role ∧ s.isRole grantee then
      if role ∈ s.roleGrants grantee then s.mergeAndPropagate others grantee
      else do
        let added := s.addRoleUserMapping grantee role
        let (cycle, _) ← added.traverseRoleGraphDown role
        if cycle then some (added.undoAddRoleUserMapping grantee role)
        else added.mergeAndPropagate others grantee
    else some s
  | .revoke role grantee others =>
    if s.isRole role ∧ s.isRole grantee ∧ role ∈ s.roleGrants grantee then
      (s.removeRoleUserMapping grantee role).mergeAndPropagate others grantee
    else some s

def history (s : Acl N) : List (RoleOp N) -> Option (List (Acl N))
  | [] => some []
  | op :: ops => do
    let s ← s.apply op
    let rest ← s.history ops
    some (s :: rest)

end Acl

end Sql
