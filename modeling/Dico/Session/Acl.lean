import Dico.Common.Run
import Dico.Text.Strings
/-!
# Access control lists

`dicod_acl_check` of `acl.c`. An access control list is a list of entries;
an entry may refer to another list, which is how checking one can go round
in circles, so the depth of the C stack is an argument. Checking reads the
name and the groups of the user and the address of the client, the
`Credentials`.
-/

namespace Dico

/-- An address of an entry, `struct dicod_sockaddr`; a Unix address that is
cut short has no path. -/
inductive Sockaddr
  | inet (addr netmask : ℕ)
  | unix (path : Bytes)
  deriving DecidableEq, Repr

/-- `client_addr`, an Internet address in host order. -/
inductive ClientAddr
  | inet (addr : ℕ)
  | unix (path : Bytes)
  | other
  deriving DecidableEq, Repr

/-- `struct acl_entry`; `acl` names another list. -/
structure AclEntry where
  allow : Bool
  authenticated : Bool
  dflt : Bool
  acl : Option ℕ
  groups : Option (List Bytes)
  sockaddrs : Option (List Sockaddr)
  deriving DecidableEq, Repr

/-- What a check knows of the client. -/
structure Credentials where
  userName : Option Bytes
  userGroups : Option (List Bytes)
  clientAddr : ClientAddr
  deriving DecidableEq, Repr

/-- `_check_sockaddr`. -/
def checkSockaddr (clt : ClientAddr) : Sockaddr → Bool
  | .inet addr netmask =>
    match clt with
    | .inet a => addr == (a &&& netmask)
    | _ => false
  | .unix path =>
    match clt with
    | .unix p => p ≠ [] && path ≠ [] && p == path
    | _ => false

/-- `dico_list_intersect_p`, of lists one of which may be missing. -/
def intersectP (eq : Bytes → Bytes → Bool) (a : List Bytes) (b : Option (List Bytes)) : Bool :=
  a.any fun p => (b.getD []).any fun q => eq q p

/-- The conditions of `_acl_check` before the entry's own list. -/
def aclWho (who : Credentials) (ent : AclEntry) : Bool :=
  (!ent.authenticated || who.userName.isSome) &&
    match ent.groups with
    | none => true
    | some groups => intersectP (· == ·) groups who.userGroups

/-- The conditions behind it. -/
def aclWhere (who : Credentials) (ent : AclEntry) : Bool :=
  ent.dflt ||
    match ent.sockaddrs with
    | none => true
    | some addrs => addrs.any (checkSockaddr who.clientAddr)

/-- `_acl_check`, where `check` checks the list the entry refers to. -/
def aclEntryCheck (check : Option ℕ → Bool → Except Fault Bool) (who : Credentials)
    (ent : AclEntry) : Except Fault Bool :=
  if aclWho who ent then do
    let result ← check ent.acl true
    .ok (result && aclWhere who ent)
  else .ok false

/-- The first entry that matches says whether access is allowed. -/
def aclScan (check : Option ℕ → Bool → Except Fault Bool) (who : Credentials) :
    List AclEntry → Bool → Except Fault Bool
  | [], result => .ok result
  | ent :: l, result => do
    let matched ← aclEntryCheck check who ent
    if matched then .ok ent.allow else aclScan check who l result

/-- `dicod_acl_check`, with so many calls left on the stack. -/
def dicodAclCheck (acls : ℕ → List AclEntry) (who : Credentials) :
    ℕ → Option ℕ → Bool → Except Fault Bool
  | _, none, result => .ok result
  | 0, some _, _ => .error .stack
  | depth + 1, some acl, result =>
    aclScan (dicodAclCheck acls who depth) who (acls acl) result

end Dico
