import Lux.StdText
import Lux.Runs

/-!
# Refresh tokens

A refresh request reads the session of its token, classifies the token against that
row, and exchanges it by one conditional update of the sessions table. Requests run
concurrently: between its clock reading, its lookups and its updates other requests,
sign-outs and revocations act on the table. A request is modelled by the stage it
has reached, with what it has read so far; every step of a request is one access to
the table.

Users and signing keys are not modelled: a request may be refused where they are
looked up. What the token library makes of an expiry is a parameter. Storage does not
fail.
-/

namespace Lux.Auth

open StdText

/-- The claims of a refresh token that are not the same for all. The random `jti` is
the number of the draw. -/
structure RefreshClaims where
  sub : Str
  sessionId : Str
  refreshTokenFamily : Str
  refreshGeneration : Nat
  jti : Nat
  exp : Nat
  deriving DecidableEq, Repr

/-- A presented text: a token with a valid signature, one with two dots and no valid
signature, or one without claims. -/
inductive Token where
  | signed (claims : RefreshClaims) (signature : Nat)
  | forged (text : Str)
  | legacy (text : Str)
  deriving DecidableEq, Repr

/-- The claims of a token that has been accepted. -/
def Token.claims? : Token → Option RefreshClaims
  | .signed claims _ => some claims
  | .forged _ => none
  | .legacy _ => none

/-- The check of the claims: signature and expiry, where the text has claims at all. What
the token library makes of an expiry at a clock reading is a parameter. -/
def Token.accepted (expiry : Nat → RefreshClaims → Bool) (clock : Nat) : Token → Bool
  | .signed claims _ => expiry clock claims
  | .forged _ => false
  | .legacy _ => true

/-- The token library lets an unexpired token pass. How long it tolerates an expired one is
left open. -/
def AdmitsUnexpired (expiry : Nat → RefreshClaims → Bool) : Prop :=
  ∀ clock claims, clock < claims.exp → expiry clock claims = true

/-- The token does not expire, or not before the clock's time. -/
def Token.unexpired (clock : Nat) : Token → Bool
  | .signed claims _ => clock < claims.exp
  | .forged _ => false
  | .legacy _ => true

/-- A row of `auth.sessions`, over the type of token hashes. -/
structure SessionRow (H : Type) where
  id : Str
  userId : Option Str
  refreshTokenHash : Option H
  refreshTokenFamily : Option Str
  refreshGeneration : Option Nat
  legacyRefreshTokenHash : Option H
  expiresAt : Option Nat
  revokedAt : Option Nat
  deriving DecidableEq, Repr

def u64Max : Nat := 2 ^ 64 - 1

namespace SessionRow

variable {H : Type}

/-- `row_field_is_set` for `revoked_at`. -/
def revoked (row : SessionRow H) : Bool := row.revokedAt.any (· ≠ 0)

/-- The family column, unless it is empty. -/
def familyColumn (row : SessionRow H) : Option Str := row.refreshTokenFamily.filter (· ≠ [])

/-- `session_family`. -/
def family (row : SessionRow H) : Str := row.familyColumn.getD row.id

/-- `session_generation`: what is no `u64` counts as zero. -/
def generation (row : SessionRow H) : Nat := (row.refreshGeneration.filter (· ≤ u64Max)).getD 0

end SessionRow

inductive Presentation where
  | current
  | reuse
  | revoked
  | invalid
  deriving DecidableEq, Repr

/-- Replies, without their texts. -/
inductive AuthReply where
  | granted
  | invalidToken
  | revokedToken
  | expiredToken
  | reuseDetected
  | refused
  | internal
  | signedOut
  deriving DecidableEq, Repr

/-- Where a request stands. -/
inductive Stage (H : Type) where
  /-- The claims have been checked, the clock is read next. -/
  | parsed
  | lookup
  | legacyLookup
  /-- A revoked row was found for a token without claims. -/
  | consumed (session : SessionRow H)
  | rotate (session : SessionRow H)
  | lost (sessionId : Str)
  /-- `revoke_family` before its lookup, and before its update. -/
  | revoke (sessionId : Str) (reply : AuthReply)
  | revokeRows (session : SessionRow H) (reply : AuthReply)
  | done (reply : AuthReply)
  deriving DecidableEq, Repr

/-- A request in flight. `reuseOf` is a ghost: the family, if the token had been
exchanged and was unexpired when it was presented. -/
structure Request (H : Type) where
  token : Option Token
  nowSec : Nat
  stage : Stage H
  reuseOf : Option Str
  deriving DecidableEq, Repr

def Request.isDone {H : Type} (request : Request H) : Bool :=
  match request.stage with
  | .done _ => true
  | _ => false

/-- A successful exchange, with the row it was decided on, the clock reading of its
request and the clock at the moment of the update. -/
structure Grant (H : Type) where
  token : Token
  row : SessionRow H
  reading : Nat
  time : Nat
  deriving DecidableEq, Repr

/-- The server. `spent` and `grants` are ghosts: the tokens exchanged so far with
their families, and the exchanges since the start. -/
structure AuthState (H : Type) where
  clock : Nat
  sessions : List (SessionRow H)
  nextJti : Nat
  requests : List (Request H)
  spent : List (Token × Str)
  grants : List (Grant H)
  deriving DecidableEq, Repr

section

variable {H : Type} [DecidableEq H] (hash : Token → H)

def classify (session : SessionRow H) (token : Token) : Presentation :=
  match token.claims? with
  | some claims =>
    if ¬ (session.id = claims.sessionId ∧ session.userId = some claims.sub ∧
        session.family = claims.refreshTokenFamily) then .invalid
    else if session.generation < claims.refreshGeneration then .invalid
    else if claims.refreshGeneration < session.generation ∨
        session.refreshTokenHash ≠ some (hash token) then .reuse
    else if session.revoked then .revoked
    else .current
  | none =>
    if session.legacyRefreshTokenHash = some (hash token) then .reuse
    else if session.refreshTokenHash = some (hash token) then
      if session.revoked then .revoked else .current
    else .invalid

/-- What `grant` does with the session it has found, up to its next access. -/
def afterLookup (session : SessionRow H) (token : Token) (nowSec : Nat) : Stage H :=
  match classify hash session token with
  | .current =>
    if session.expiresAt.getD 0 ≤ nowSec then .done .expiredToken
    else if session.userId = none then .done .internal
    else .rotate session
  | .reuse => .revoke session.id .reuseDetected
  | .revoked => if token.claims? = none then .consumed session else .done .revokedToken
  | .invalid => .done .invalidToken

/-- `find_row_by_field` on the key. -/
def findById (sessions : List (SessionRow H)) (sessionId : Str) : Option (SessionRow H) :=
  sessions.find? (·.id = sessionId)

/-- The limit of the select in `find_rows_by_field`. -/
def rowLimit : Nat := 1000

/-- `find_rows_by_field` on the family column: no more rows than the limit, in the order in
which the table gives them. -/
def findByFamily (sessions : List (SessionRow H)) (family : Str) : List (SessionRow H) :=
  (sessions.filter (·.refreshTokenFamily = some family)).take rowLimit

/-- The predicate of the rotating update. -/
def rotates (sessionId : Str) (tokenHash : H) (nowSec : Nat) (row : SessionRow H) : Bool :=
  row.id = sessionId && row.refreshTokenHash = some tokenHash && row.expiresAt.any (nowSec < ·) &&
    (row.revokedAt = none || row.revokedAt = some 0)

/-- The token that takes the place of the presented one. -/
def nextClaims (session : SessionRow H) (jti nowSec ttl : Nat) : RefreshClaims where
  sub := session.userId.getD []
  sessionId := session.id
  refreshTokenFamily := session.family
  refreshGeneration := max (min (session.generation + 1) u64Max) 1
  jti := jti
  exp := nowSec + ttl

/-- The columns the rotating update sets. -/
def rotated (token : Token) (next : Token) (claims : RefreshClaims) (row : SessionRow H) :
    SessionRow H :=
  { row with
    refreshTokenHash := some (hash next)
    refreshGeneration := some claims.refreshGeneration
    expiresAt := some claims.exp
    legacyRefreshTokenHash :=
      if token.claims? = none then some (hash token) else row.legacyRefreshTokenHash }

/-- The rows a revocation updates: the family, or the one session without a family. -/
def revokes (session row : SessionRow H) : Bool :=
  match session.familyColumn with
  | some family => row.refreshTokenFamily = some family
  | none => row.id = session.id

/-- A table update: the rows that match are replaced. -/
def updateWhere (matched : SessionRow H → Bool) (change : SessionRow H → SessionRow H)
    (sessions : List (SessionRow H)) : List (SessionRow H) :=
  sessions.map fun row => if matched row then change row else row

/-- What the environment decides at a step: the user or the keys may be missing, and a
signature is not a function of the claims. -/
inductive Choice where
  | refuse
  | sign (signature : Nat)
  deriving DecidableEq, Repr

/-- The next access of a request. -/
def serve (ttl : Nat) (s : AuthState H) (r : Request H) (choice : Choice) :
    AuthState H × Request H :=
  match r.stage, r.token with
  | .parsed, _ => (s, { r with nowSec := s.clock, stage := .lookup })
  | .lookup, some token =>
    match token.claims? with
    | some claims =>
      match findById s.sessions claims.sessionId with
      | some session => (s, { r with stage := afterLookup hash session token r.nowSec })
      | none => (s, { r with stage := .done .invalidToken })
    | none =>
      match s.sessions.find? (·.refreshTokenHash = some (hash token)) with
      | some session => (s, { r with stage := afterLookup hash session token r.nowSec })
      | none => (s, { r with stage := .legacyLookup })
  | .legacyLookup, some token =>
    match s.sessions.find? (·.legacyRefreshTokenHash = some (hash token)) with
    | some session => (s, { r with stage := afterLookup hash session token r.nowSec })
    | none => (s, { r with stage := .done .invalidToken })
  | .consumed session, _ =>
    -- `revoked_opaque_was_consumed`
    if session.family ≠ [] ∧ (findByFamily s.sessions session.family).any fun row =>
        row.id ≠ session.id && !row.revoked
    then (s, { r with stage := .revoke session.id .reuseDetected })
    else (s, { r with stage := .done .revokedToken })
  | .rotate session, some token =>
    match choice with
    | .refuse => (s, { r with stage := .done .refused })
    | .sign signature =>
      let claims := nextClaims session s.nextJti r.nowSec ttl
      let matched := rotates session.id (hash token) r.nowSec
      let s' := { s with
        nextJti := s.nextJti + 1
        sessions :=
          updateWhere matched (rotated hash token (.signed claims signature) claims) s.sessions }
      match s.sessions.filter matched with
      | [] => (s', { r with stage := .lost session.id })
      | [row] =>
        ({ s' with
            spent := (token, row.family) :: s.spent
            grants := ⟨token, row, r.nowSec, s.clock⟩ :: s.grants },
          { r with stage := .done .granted })
      | _ => (s', { r with stage := .done .internal })
  | .lost sessionId, some token =>
    match findById s.sessions sessionId with
    | none => (s, { r with stage := .done .invalidToken })
    | some latest =>
      match classify hash latest token with
      | .reuse => (s, { r with nowSec := s.clock, stage := .revoke latest.id .reuseDetected })
      | .revoked => (s, { r with stage := .done .revokedToken })
      | _ => (s, { r with stage := .done .invalidToken })
  | .revoke sessionId reply, _ =>
    match findById s.sessions sessionId with
    | none => (s, { r with stage := .done reply })
    | some session => (s, { r with stage := .revokeRows session reply })
  | .revokeRows session reply, _ =>
    ({ s with
        sessions :=
          updateWhere (revokes session) (fun row => { row with revokedAt := some r.nowSec })
            s.sessions },
      { r with stage := .done reply })
  | _, _ => (s, r)

/-- What can happen next. -/
inductive AuthOp where
  /-- The clock shows another time. -/
  | tick (clock : Nat)
  /-- A refresh request arrives. -/
  | present (token : Token)
  /-- A sign-out or revocation of a session arrives. -/
  | signOut (sessionId : Str)
  /-- A request makes its next access. -/
  | advance (i : Nat) (choice : Choice)
  deriving DecidableEq, Repr

def authStep (expiry : Nat → RefreshClaims → Bool) (ttl : Nat) (s : AuthState H) :
    AuthOp → AuthState H
  | .tick clock => { s with clock := clock }
  | .present token =>
    let reuseOf := if token.unexpired s.clock then s.spent.lookup token else none
    let stage := if token.accepted expiry s.clock then .parsed else .done .invalidToken
    { s with requests := s.requests ++ [⟨some token, s.clock, stage, reuseOf⟩] }
  | .signOut sessionId =>
    { s with requests := s.requests ++ [⟨none, s.clock, .revoke sessionId .signedOut, none⟩] }
  | .advance i choice =>
    match s.requests[i]? with
    | none => s
    | some r =>
      let (s', r') := serve hash ttl s r choice
      { s' with requests := s.requests.set i r' }

end

end Lux.Auth
