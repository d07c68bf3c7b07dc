import DistributedSync.Library.Json.Strings
import DistributedSync.Library.Lines
import DistributedSync.Core.Values

/-!
# Authorization

The API keys and roles of `BonusSecurityService`, and the middleware of `src/src/app.py` in front of
the bonus handlers. The middleware asks for the permission "read" on every path, so a viewer gets
through to the handlers that have permissions of their own (`protected_iff`).
-/

namespace DistributedSync

open Json (Str ofString)

/-! ## Keys and roles -/

/-- The part of `BonusSecurityService` that decides on requests. -/
structure AccessControl where
  authEnabled : Bool
  apiKeys : List (Str × Str)

/-- What `enforce` returns. -/
structure AuthInfo where
  apiKey : Str
  role : Str

namespace AccessControl

/-- `str.strip()`. -/
def strip (s : Str) : Str :=
  let isSpace c := Lines.isSpace (Char.ofNat c)
  ((s.dropWhile isSpace).reverse.dropWhile isSpace).reverse

/-- One turn of the loop of `_parse_api_keys`. -/
def parsePair (parsed : List (Str × Str)) (pair : Str) : List (Str × Str) :=
  let colon := ':'.toNat
  if strip pair = [] ∨ colon ∉ pair then parsed
  else
    let token := pair.takeWhile (· ≠ colon)
    let role := (pair.dropWhile (· ≠ colon)).drop 1
    setItem parsed (strip token) (strip role)

def parseApiKeys (apiKeys : Str) : List (Str × Str) :=
  (apiKeys.splitOn ','.toNat).foldl parsePair []

/-- `__init__`. -/
def init (authEnabled : Bool) (apiKeys : Str) : AccessControl where
  authEnabled := authEnabled
  apiKeys := parseApiKeys apiKeys

def rolePermissions : List (Str × List Str) :=
  [(ofString "admin", [ofString "*"]),
    (ofString "operator", ["read", "write", "publish", "consume", "lock", "encrypt", "decrypt",
      "pbft:commit"].map ofString),
    (ofString "viewer", ["read", "status"].map ofString)]

def authorize (role action : Str) : Bool :=
  let permissions := (rolePermissions.lookup role).getD []
  permissions.contains (ofString "*") || permissions.contains action

variable (a : AccessControl)

/-- `enforce`, with the text of the `PermissionError`. -/
def enforce (apiKey action : Str) : Except String AuthInfo :=
  if a.authEnabled then
    let role := (a.apiKeys.lookup apiKey).getD []
    if role = [] then .error "invalid_api_key"
    else if authorize role action then .ok { apiKey, role }
    else .error "insufficient_role"
  else .ok { apiKey, role := ofString "admin" }

end AccessControl

/-! ## The middleware -/

/-- What a handler sees of a request, with `request['auth']`. -/
structure Request (B : Type) where
  path : Str
  apiKey : Option Str
  body : B
  auth : Option AuthInfo := none

/-- An answer of the middleware, or one of the handler. -/
inductive Answer (R : Type) where
  | refused (status : ℕ) (error : String)
  | handled (response : R)

variable {B R S : Type}

def protectedPaths : List Str :=
  ["/security/", "/bonus/pbft/", "/bonus/geo/", "/bonus/load-balance/"].map ofString

/-- `_auth_middleware`. A handler reads and writes the state of the services. -/
def authMiddleware (a : AccessControl) (handler : Request B → S → R × S) (request : Request B)
    (state : S) : Answer R × S :=
  let isProtected := protectedPaths.any fun path => path.isPrefixOf request.path
  let handle request :=
    let r := handler request state
    (.handled r.1, r.2)
  if isProtected && a.authEnabled then
    match request.apiKey with
    | none | some [] => (.refused 401 "missing_api_key", state)
    | some apiKey =>
      match a.enforce apiKey (ofString "read") with
      | .ok authInfo => handle { request with auth := authInfo }
      | .error e => (.refused 403 e, state)
  else handle request

/-- The handlers that have a permission of their own. -/
inductive ProtectedRoute where
  | encrypt
  | decrypt
  | pbftCommit

namespace ProtectedRoute

def path : ProtectedRoute → Str
  | .encrypt => ofString "/security/encrypt"
  | .decrypt => ofString "/security/decrypt"
  | .pbftCommit => ofString "/bonus/pbft/commit"

/-- The name of the permission in `role_permissions`. -/
def action : ProtectedRoute → Str
  | .encrypt => ofString "encrypt"
  | .decrypt => ofString "decrypt"
  | .pbftCommit => ofString "pbft:commit"

end ProtectedRoute

/-- The header holds a key that `enforce` accepts for the action. -/
def Permitted (a : AccessControl) (apiKey : Option Str) (action : Str) : Prop :=
  ∃ key, apiKey = some key ∧ key ≠ [] ∧ ∃ info, a.enforce key action = .ok info

/-- A route is protected by its permission: without it no handler is executed, whatever it does, and
the answer is 401 or 403. -/
def Protected (a : AccessControl) (apiKey : Option Str) (route : ProtectedRoute) : Prop :=
  ¬Permitted a apiKey route.action →
    ∀ (B R S : Type) (handler : Request B → S → R × S) (body : B) (state : S),
      ∃ status error, (status = 401 ∨ status = 403) ∧
        authMiddleware a handler { path := route.path, apiKey, body } state =
          (.refused status error, state)

/-! ## Who gets through -/

namespace AccessControl

theorem authorize_viewer (route : ProtectedRoute) :
    authorize (ofString "viewer") route.action = false := by
  cases route <;> decide +kernel

theorem authorize_of_read {role : Str} (hviewer : role ≠ ofString "viewer")
    (h : authorize role (ofString "read") = true) (route : ProtectedRoute) :
    authorize role route.action = true := by
  by_cases hadmin : role = ofString "admin"
  · rw [hadmin]
    cases route <;> decide +kernel
  by_cases hoperator : role = ofString "operator"
  · rw [hoperator]
    cases route <;> decide +kernel
  have hnone : rolePermissions.lookup role = none := by
    rw [lookup_eq_none_iff]
    simp [rolePermissions, Ne.symm hadmin, Ne.symm hoperator, Ne.symm hviewer]
  rw [authorize, hnone] at h
  cases h

theorem enforce_ok_iff {a : AccessControl} (h : a.authEnabled = true) {key action : Str}
    {info : AuthInfo} : a.enforce key action = .ok info ↔ info = ⟨key, info.role⟩ ∧
      info.role ≠ [] ∧ (a.apiKeys.lookup key).getD [] = info.role ∧
      authorize info.role action = true := by
  simp only [enforce, h, if_true]
  split
  · next hrole =>
    rw [hrole]
    refine iff_of_false (by simp) fun hi => hi.2.1 hi.2.2.1.symm
  · next hrole =>
    split
    · next hauth =>
      constructor
      · intro heq
        cases heq
        exact ⟨rfl, hrole, rfl, hauth⟩
      · rintro ⟨hi, -, hlookup, -⟩
        rw [hi, hlookup]
    · next hauth =>
      refine iff_of_false (by simp) fun hi => hauth ?_
      rw [hi.2.2.1]
      exact hi.2.2.2

end AccessControl

section Middleware

variable {a : AccessControl} {route : ProtectedRoute} {key : Str} {info : AuthInfo}
  {handler : Request B → S → R × S} {body : B} {state : S}

theorem isProtected_path (route : ProtectedRoute) :
    (protectedPaths.any fun path => path.isPrefixOf route.path) = true := by
  cases route <;> decide +kernel

/-- The handler of a protected route runs if the key may read. -/
theorem authMiddleware_ok (ha : a.authEnabled = true) (hkey : key ≠ [])
    (h : a.enforce key (ofString "read") = .ok info) :
    authMiddleware a handler { path := route.path, apiKey := some key, body } state =
      (.handled (handler { path := route.path, apiKey := some key, body, auth := info } state).1,
        (handler { path := route.path, apiKey := some key, body, auth := info } state).2) := by
  obtain ⟨c, key', rfl⟩ := List.exists_cons_of_ne_nil hkey
  simp only [authMiddleware, isProtected_path, ha, Bool.and_self, if_true, h]

theorem authMiddleware_refused (ha : a.authEnabled = true) {apiKey : Option Str}
    (h : ∀ key, apiKey = some key → key ≠ [] →
      ∃ e, a.enforce key (ofString "read") = .error e) :
    ∃ status error, (status = 401 ∨ status = 403) ∧
      authMiddleware a handler { path := route.path, apiKey, body } state =
        (.refused status error, state) := by
  rcases apiKey with _ | _ | ⟨c, key⟩
  · refine ⟨401, "missing_api_key", Or.inl rfl, ?_⟩
    simp only [authMiddleware, isProtected_path, ha, Bool.and_self, if_true]
  · refine ⟨401, "missing_api_key", Or.inl rfl, ?_⟩
    simp only [authMiddleware, isProtected_path, ha, Bool.and_self, if_true]
  · obtain ⟨e, he⟩ := h (c :: key) rfl (by simp)
    refine ⟨403, e, Or.inr rfl, ?_⟩
    simp only [authMiddleware, isProtected_path, ha, Bool.and_self, if_true, he]

/-- A viewer gets through to every handler. -/
theorem not_protected_viewer (ha : a.authEnabled = true) (hkey : key ≠ [])
    (hviewer : a.apiKeys.lookup key = some (ofString "viewer")) :
    ¬Protected a (some key) route := by
  intro h
  have hrole : ofString "viewer" ≠ [] := by decide
  have hauth : AccessControl.authorize (ofString "viewer") (ofString "read") = true := by
    decide +kernel
  have hread : a.enforce key (ofString "read") = .ok ⟨key, ofString "viewer"⟩ :=
    (AccessControl.enforce_ok_iff ha).mpr ⟨rfl, hrole, by rw [hviewer]; rfl, hauth⟩
  have hno : ¬Permitted a (some key) route.action := by
    rintro ⟨key', heq, -, info, hinfo⟩
    obtain rfl := Option.some.inj heq
    obtain ⟨-, -, hrole, hauth⟩ := (AccessControl.enforce_ok_iff ha).mp hinfo
    rw [hviewer, Option.getD_some] at hrole
    rw [← hrole, AccessControl.authorize_viewer] at hauth
    cases hauth
  obtain ⟨status, error, -, heq⟩ := h hno Unit Unit Unit (fun _ _ => ((), ())) () ()
  rw [authMiddleware_ok ha hkey hread] at heq
  cases congrArg Prod.fst heq

end Middleware

/-- With authorization on, the three routes are protected by their permissions exactly if the key of
the request is not that of a viewer. -/
theorem protected_iff (apiKeys : Str) (apiKey : Option Str) (route : ProtectedRoute) :
    Protected (.init true apiKeys) apiKey route ↔ ∀ key, apiKey = some key → key ≠ [] →
      (AccessControl.parseApiKeys apiKeys).lookup key ≠ some (ofString "viewer") := by
  have ha : (AccessControl.init true apiKeys).authEnabled = true := rfl
  have hkeys : (AccessControl.init true apiKeys).apiKeys = AccessControl.parseApiKeys apiKeys := rfl
  constructor
  · rintro h key rfl hkey hviewer
    exact not_protected_viewer ha hkey (hkeys ▸ hviewer) h
  · intro h hno B R S handler body state
    refine authMiddleware_refused ha fun key hkey hne => ?_
    rcases hread : (AccessControl.init true apiKeys).enforce key (ofString "read") with e | info
    · exact ⟨e, rfl⟩
    · obtain ⟨hinfo, hrole, hlookup, hauth⟩ := (AccessControl.enforce_ok_iff ha).mp hread
      -- the key has a role other than that of a viewer
      have hviewer : info.role ≠ ofString "viewer" := by
        intro heq
        rw [hkeys] at hlookup
        rcases hfound : (AccessControl.parseApiKeys apiKeys).lookup key with _ | role
        · rw [hfound] at hlookup
          exact hrole hlookup.symm
        · rw [hfound, Option.getD_some] at hlookup
          exact h key hkey hne (by rw [hfound, hlookup, heq])
      have hauth' := AccessControl.authorize_of_read hviewer hauth route
      refine absurd ⟨key, hkey, hne, info, ?_⟩ hno
      exact (AccessControl.enforce_ok_iff ha).mpr ⟨hinfo, hrole, hlookup, hauth'⟩

/-- A viewer encrypts. -/
theorem protected_fails : ¬∀ apiKeys apiKey route,
    Protected (.init true apiKeys) apiKey route := by
  intro h
  exact not_protected_viewer rfl (by decide) (by decide +kernel)
    (h (ofString "viewer-key:viewer") (some (ofString "viewer-key")) .encrypt)

end DistributedSync
