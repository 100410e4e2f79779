import Turma.Lib.JsObject
import Turma.Lib.JsString

/-! The users' store of the hub: `coerceTenancy` and what it coerces with. -/

namespace Turma.Tenancy

open Turma.Lib JsString

/-- `Object.prototype.toString` on an object, unless a member of its own hides it: what JSON holds is
no function, and `valueOf` returns the object itself. -/
def objectText (ms : JsonMembers) : Option JsString :=
  if (ms.toList.map Prod.fst).contains (ofString "toString") = true then none
  else some (ofString "[object Object]")

mutual

/-- `none` for the `TypeError` of a value that cannot be converted. -/
def textOf : Json → Option JsString
  | .null => some (ofString "null")
  | .bool b => some (if b = true then ofString "true" else ofString "false")
  | .num n => some (n.text.map .scalar)
  | .str s => some s
  | .arr vs => joinElements vs
  | .obj ms => objectText ms

/-- `vs.join(",")`, in which `null` is empty. -/
def joinElements : JsonElements → Option JsString
  | .nil => some []
  | .cons v .nil => elementText v
  | .cons v (.cons w vs) => do
    let s ← elementText v
    let t ← joinElements (.cons w vs)
    some (s ++ .scalar ',' :: t)

def elementText : Json → Option JsString
  | .null => some []
  | .bool b => some (if b = true then ofString "true" else ofString "false")
  | .num n => some (n.text.map .scalar)
  | .str s => some s
  | .arr vs => joinElements vs
  | .obj ms => objectText ms

end

/-- `[0-9a-f]`. -/
def hexChar (c : Char) : Bool := ('0' ≤ c && c ≤ '9') || ('a' ≤ c && c ≤ 'f')

/-- `[A-Za-z0-9._-]`. -/
def groupChar (c : Char) : Bool := asciiAlnum c || c = '.' || c = '_' || c = '-'

/-- `[A-Za-z0-9._@-]`. -/
def usernameChar (c : Char) : Bool := groupChar c || c = '@'

/-- `[A-Za-z0-9+/=]`. -/
def base64Char (c : Char) : Bool := asciiAlnum c || c = '+' || c = '/' || c = '='

/-- `ID_RE`. -/
def isId (s : JsString) : Bool := s.length = 32 && s.allIn hexChar

/-- `GROUP_RE`. -/
def isGroup (s : JsString) : Bool := s.matches1 groupChar 64

/-- `USERNAME_RE`. -/
def isUsername (s : JsString) : Bool := s.matches1 usernameChar 64

def digitsValue (s : JsString) : ℕ :=
  s.foldl (fun n c => match c with
    | .scalar c => n * 10 + (c.toNat - '0'.toNat)
    | .lone _ => n) 0

/-- What stands between the `$` of a stored hash, as the pattern and the bounds of `parseHash` have it.
`bytes` is how many bytes a base64 text decodes to. -/
def hashParts (bytes : JsString → ℕ) : List JsString → Bool
  | [scheme, n, r, p, salt, key] =>
    scheme = ofString "scrypt" &&
      n.matches1 Char.isDigit 7 && r.matches1 Char.isDigit 3 && p.matches1 Char.isDigit 3 &&
      salt.matches1 base64Char 64 && 4 ≤ salt.length &&
      key.matches1 base64Char 128 && 4 ≤ key.length &&
      2 ≤ digitsValue n && digitsValue n &&& (digitsValue n - 1) = 0 &&
      128 * digitsValue n * digitsValue r ≤ 64 * 1024 * 1024 &&
      1 ≤ digitsValue p && digitsValue p ≤ 4 &&
      8 ≤ bytes salt && 16 ≤ bytes key
  | _ => false

def parseHash (bytes : JsString → ℕ) (stored : JsString) : Bool :=
  hashParts bytes (stored.splitOn (.scalar '$'))

def strips : CodePoint → Bool
  | .scalar c => CodePoint.control (.scalar c) || c.toNat = 0x200e || c.toNat = 0x200f ||
      (0x202a ≤ c.toNat && c.toNat ≤ 0x202e) || (0x2066 ≤ c.toNat && c.toNat ≤ 0x2069)
  | .lone _ => false

def cleanText (v : Option Json) (max : ℕ) : JsString :=
  match v with
  | some (.str s) => JsString.slice max (JsString.trim (s.filter fun c => !strips c))
  | _ => []

/-- `finiteMs`: a positive safe integer. -/
def finiteMs : Option Json → Option JsNumber
  | some (.num (.whole z exact plain)) =>
    if 0 < z ∧ z < 2 ^ 53 then some (.whole z exact plain) else none
  | _ => none

inductive Role
  | user
  | admin
deriving DecidableEq

def Role.text : Role → JsString
  | .user => ofString "user"
  | .admin => ofString "admin"

def roleOf : Option Json → Option Role
  | some (.str s) => [Role.user, Role.admin].find? fun r => r.text = s
  | _ => none

structure Reset where
  time : JsNumber
  admin : JsString
deriving DecidableEq

inductive Account
  | password (username : JsString) (passwordHash : Option JsString) (mustChangePassword : Bool)
      (passwordResets : List Reset)
  | oidc (oidcIss oidcSub : JsString) (idpRoles : List Role)
deriving DecidableEq

def Account.source : Account → String
  | .password .. => "local"
  | .oidc .. => "oidc"

structure User where
  id : JsString
  tenantId : Json
  displayName : JsString
  account : Account
  groups : List JsString
  disabled : Bool
  /-- `disabledBy` is `"idp"`. -/
  byIdp : Bool
  createdAt : JsNumber
  lastLoginAt : Option JsNumber
  sessionEpoch : Option JsNumber
deriving DecidableEq

/-- A `TypeError` ends the whole call. -/
inductive Thrown
  | typeError
deriving DecidableEq

def elements : Option Json → List Json
  | some (.arr vs) => vs.toList
  | _ => []

def passwordResets (u : Json) : List Reset :=
  let resets := (elements (u.field (.ofString "passwordResets"))).filterMap fun r =>
    (finiteMs (r.field (.ofString "at"))).map fun time =>
      let admin := cleanText (r.field (.ofString "by")) 120
      ⟨time, if admin = [] then .ofString "an administrator" else admin⟩
  resets.drop (resets.length - 10)

def asString : Option Json → Option JsString
  | some (.str s) => some s
  | _ => none

def accountOf (bytes : JsString → ℕ) (u : Json) : Option Account :=
  (asString (u.field (.ofString "source"))).bind fun source =>
    if source = .ofString "local" then
      (asString (u.field (.ofString "username"))).bind fun username =>
        if isUsername username = true then
          some (.password username
            ((asString (u.field (.ofString "passwordHash"))).filter (parseHash bytes))
            (u.field (.ofString "mustChangePassword") = some (.bool true))
            (passwordResets u))
        else none
    else if source = .ofString "oidc" then
      (asString (u.field (.ofString "oidcSub"))).bind fun sub =>
        (asString (u.field (.ofString "oidcIss"))).bind fun iss =>
          if sub = [] ∨ 255 < sub.length16 ∨ iss = [] ∨ 500 < iss.length16 then none
          else
            some (.oidc iss sub
              ((elements (u.field (.ofString "idpRoles"))).filterMap fun r => roleOf (some r)).eraseDups)
    else none

def groupOf : Json → Option JsString
  | .str s => if isGroup s = true then some s else none
  | _ => none

/-- `coerceUser`, once the id and the tenant id have passed. -/
def coerceRecord (bytes : JsString → ℕ) (id : JsString) (tenantId u : Json) : Option User :=
  (accountOf bytes u).map fun account =>
    let displayName := cleanText (u.field (.ofString "displayName")) 100
    let disabled : Bool := u.field (.ofString "disabled") = some (.bool true)
    { id
      tenantId
      displayName := if displayName = [] then .ofString "user" else displayName
      account
      groups := ((elements (u.field (.ofString "groups"))).filterMap groupOf).eraseDups.take 20
      disabled
      byIdp := disabled && account.source = "oidc" &&
        u.field (.ofString "disabledBy") = some (.str (.ofString "idp"))
      createdAt := (finiteMs (u.field (.ofString "createdAt"))).getD (.ofInt 0)
      lastLoginAt := finiteMs (u.field (.ofString "lastLoginAt"))
      sessionEpoch := finiteMs (u.field (.ofString "sessionEpoch")) }

/-- `ID_RE.test` converts what it is given, so that an array that holds nothing but an id passes. -/
def coerceUser (bytes : JsString → ℕ) (id : JsString) (u : Json) : Except Thrown (Option User) :=
  if isId id = false then .ok none
  else
    match u with
    | .obj ms =>
      match (Json.obj ms).field (.ofString "tenantId") with
      | none => .ok none
      | some tenantId =>
        match textOf tenantId with
        | none => .error .typeError
        | some text =>
          if isId text = false ∨ tenantId = .str id then .ok none
          else .ok (coerceRecord bytes id tenantId (.obj ms))
    | _ => .ok none

def lowerName (s : JsString) : JsString :=
  s.map fun c => match c with
    | .scalar c => .scalar c.toLower
    | .lone u => .lone u

def Account.loginKey : Account → JsString
  | .password username _ _ _ => .ofString "l:" ++ lowerName username
  | .oidc iss sub _ => .ofString "o:" ++ iss ++ .ofString "\n" ++ sub

structure Seen where
  users : List (JsString × User)
  names : List JsString
  subs : List JsString
  tenants : List Json
  n : ℕ

def Seen.none : Seen := ⟨[], [], [], [], 0⟩

/-- `seenTenant.has`. Two arrays are never the same one. -/
def Seen.hasTenant (s : Seen) : Json → Bool
  | .str t => s.tenants.contains (.str t)
  | _ => false

def Seen.hasLogin (s : Seen) (a : Account) : Bool :=
  match a with
  | .password .. => s.names.contains a.loginKey
  | .oidc .. => s.subs.contains a.loginKey

/-- `users[id] = c`, where `id` is new: an object lists a key once. -/
def Seen.add (s : Seen) (id : JsString) (c : User) : Seen where
  users := s.users ++ [(id, c)]
  names := match c.account with
    | .password .. => s.names ++ [c.account.loginKey]
    | .oidc .. => s.names
  subs := match c.account with
    | .password .. => s.subs
    | .oidc .. => s.subs ++ [c.account.loginKey]
  tenants := s.tenants ++ [c.tenantId]
  n := s.n + 1

def coerceUsers (bytes : JsString → ℕ) : List (JsString × Json) → Seen → Except Thrown Seen
  | [], s => .ok s
  | (id, u) :: es, s =>
    if 1000 ≤ s.n then .ok s
    else
      match coerceUser bytes id u with
      | .error e => .error e
      | .ok none => coerceUsers bytes es s
      | .ok (some c) =>
        if s.hasTenant c.tenantId = true ∨ s.hasLogin c.account = true then coerceUsers bytes es s
        else coerceUsers bytes es (s.add id c)

/-- The loop over the groups; `g` are kept already. -/
def coerceGroups : List (JsString × Json) → ℕ → List (JsString × Role)
  | [], _ => []
  | (name, v) :: es, g =>
    if 100 ≤ g then []
    else
      match isGroup name, roleOf (v.field (.ofString "role")) with
      | true, some role => (name, role) :: coerceGroups es (g + 1)
      | _, _ => coerceGroups es g

structure UserStore where
  users : List (JsString × User)
  groups : Option (List (JsString × Role))
deriving DecidableEq

/-- The members of an object as `Object.entries` lists them, none of anything else. -/
def entriesOf : Option Json → Option (List (JsString × Json))
  | some (.obj ms) => some (listing ms.toList)
  | _ => none

def coerceTenancy (bytes : JsString → ℕ) (raw : Json) : Except Thrown UserStore :=
  match coerceUsers bytes ((entriesOf (raw.field (.ofString "users"))).getD []) .none with
  | .error e => .error e
  | .ok s => .ok {
      users := s.users
      groups := (entriesOf (raw.field (.ofString "groups"))).map fun es => coerceGroups es 0 }

def array (vs : List Json) : Json := .arr (.ofList vs)

def object (ms : List (JsString × Json)) : Json := .obj (.ofList ms)

def record (ms : List (String × Option Json)) : Json :=
  object (ms.filterMap fun m => m.2.map fun v => (.ofString m.1, v))

def Reset.toJson (r : Reset) : Json := record [("at", some (.num r.time)), ("by", some (.str r.admin))]

def Account.members : Account → List (String × Option Json)
  | .password username passwordHash mustChangePassword passwordResets =>
    [("username", some (.str username)),
      ("passwordHash", passwordHash.map .str),
      ("mustChangePassword", if mustChangePassword = true then some (.bool true) else none),
      ("passwordResets",
        if passwordResets = [] then none else some (array (passwordResets.map Reset.toJson)))]
  | .oidc oidcIss oidcSub idpRoles =>
    [("oidcIss", some (.str oidcIss)),
      ("oidcSub", some (.str oidcSub)),
      ("idpRoles", some (array (idpRoles.map fun r => .str r.text)))]

def User.members (c : User) : List (String × Option Json) :=
  [("id", some (.str c.id)),
    ("tenantId", some c.tenantId),
    ("source", some (.str (.ofString c.account.source))),
    ("displayName", some (.str c.displayName))] ++
  c.account.members ++
  [("groups", some (array (c.groups.map .str))),
    ("disabled", some (.bool c.disabled)),
    ("disabledBy", if c.byIdp = true then some (.str (.ofString "idp")) else none),
    ("createdAt", some (.num c.createdAt)),
    ("lastLoginAt", c.lastLoginAt.map .num),
    ("sessionEpoch", c.sessionEpoch.map .num)]

def User.toJson (c : User) : Json := record c.members

def UserStore.toJson (t : UserStore) : Json :=
  record [("users", some (object (t.users.map fun e => (e.1, e.2.toJson)))),
    ("groups", t.groups.map fun gs =>
      object (gs.map fun g => (g.1, record [("role", some (.str g.2.text))])))]

end Turma.Tenancy
