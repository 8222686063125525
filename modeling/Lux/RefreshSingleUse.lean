import Lux.RefreshRequest

/-!
# Refresh tokens are used once

Requests, sign-outs and the clock take steps in any order. Every step keeps the table
coherent and every request in flight in order, so no token is exchanged twice, and a
request with an exchanged token comes to its end with its family revoked.

A request reads the clock once, at its start, and everything it decides is decided by
that reading. So a request that is overtaken by the expiry of its session between its
reading and its update is still granted, while one that starts after it is not.
-/

namespace Lux.Auth

open StdText Runs List

variable {H : Type} {hash : Token → H} {s s' : AuthState H}

/-! ## Runs -/

/-- The clock shows a time after the epoch. -/
def AuthOp.afterEpoch : AuthOp → Bool
  | .tick clock => 0 < clock
  | _ => true

/-- What is true in every state a run reaches from `start`. -/
structure Sound (hash : Token → H) (start s : AuthState H) : Prop where
  coherent : Coherent hash s
  bounded : Bounded s
  requests : ∀ r ∈ s.requests, RequestOk hash s r
  ledger : s.spent = s.grants.map (fun grant => (grant.token, grant.row.family)) ++ start.spent
  live : ∀ grant ∈ s.grants, grant.row.revoked = false ∧
    ∃ expiry, grant.row.expiresAt = some expiry ∧ grant.reading < expiry

/-- What a step keeps, and what it can grant. -/
structure Stepped (hash : Token → H) (start s s' : AuthState H) : Prop where
  sound : Sound hash start s'
  evolves : Evolves hash s s'
  grants : s'.grants = s.grants ∨
    ∃ grant : Grant H, grant.row ∈ s.sessions ∧ grant.row.revoked = false ∧
      s'.grants = grant :: s.grants

variable {start : AuthState H}

/-- As many rows in each family as before. -/
theorem Bounded.of_families (h : Bounded s)
    (hfamilies : s'.sessions.map (·.refreshTokenFamily) =
      s.sessions.map (·.refreshTokenFamily)) : Bounded s' := by
  intro family
  have hcount := congrArg (countP (fun column => decide (column = some family))) hfamilies
  rw [countP_map, countP_map] at hcount
  rw [← countP_eq_length_filter]
  exact hcount.le.trans (countP_eq_length_filter.trans_le (h family))

/-- A step that leaves the table alone. -/
theorem Stepped.of_sessions_eq (hinj : Function.Injective hash) (h : Sound hash start s)
    (hclock : 0 < s'.clock) (hsessions : s'.sessions = s.sessions) (hjti : s'.nextJti = s.nextJti)
    (hspent : s'.spent = s.spent) (hgrants : s'.grants = s.grants)
    (hrequests : ∀ r ∈ s'.requests, r ∈ s.requests ∨ RequestOk hash s r) :
    Stepped hash start s s' := by
  have hevolves : Evolves hash s s' := .of_sessions_eq hsessions hjti.ge (by simp [hspent])
  refine ⟨⟨h.coherent.congr hclock hsessions hjti hspent, ?_, ?_, ?_, hgrants ▸ h.live⟩, hevolves,
    .inl hgrants⟩
  · rw [Bounded, hsessions]
    exact h.bounded
  · intro r hr
    rcases hrequests r hr with hold | hnew
    · exact (h.requests r hold).evolves hinj hevolves
    · exact hnew.evolves hinj hevolves
  · rw [hspent, hgrants]
    exact h.ledger

/-- A step in which a request makes an access. -/
theorem Stepped.of_served (hinj : Function.Injective hash) (h : Sound hash start s) (i : Nat)
    {r : Request H} (hserved : Served hash s s' r)
    (hfamilies : s'.sessions.map (·.refreshTokenFamily) =
      s.sessions.map (·.refreshTokenFamily)) :
    Stepped hash start s { s' with requests := s.requests.set i r } := by
  obtain ⟨hcoherent, hevolves, hrequest, -, hledger⟩ := hserved
  have hsame : Evolves hash s' { s' with requests := s.requests.set i r } :=
    .of_sessions_eq rfl le_rfl fun _ hp => hp
  refine ⟨⟨hcoherent.congr hcoherent.clock rfl rfl rfl, h.bounded.of_families hfamilies,
    ?_, ?_, ?_⟩, ⟨hevolves.forth, hevolves.back, hevolves.jti, hevolves.spent⟩, ?_⟩
  · intro other hother
    rcases mem_or_eq_of_mem_set hother with hold | rfl
    · exact ((h.requests other hold).evolves hinj hevolves).evolves hinj hsame
    · exact hrequest.evolves hinj hsame
  · rcases hledger with ⟨hgrants, hspent⟩ | ⟨grant, -, -, -, hgrants, hspent⟩
    · simp only [hgrants, hspent, h.ledger]
    · simp only [hgrants, hspent, h.ledger, map_cons, cons_append]
  · rcases hledger with ⟨hgrants, -⟩ | ⟨grant, -, hlive, hexpiry, hgrants, -⟩
    · simp only [hgrants]
      exact h.live
    · simp only [hgrants, forall_mem_cons]
      exact ⟨⟨hlive, hexpiry⟩, h.live⟩
  · rcases hledger with ⟨hgrants, -⟩ | ⟨grant, hmem, hlive, -, hgrants, -⟩
    · exact .inl hgrants
    · exact .inr ⟨grant, hmem, hlive, hgrants⟩

/-- What a new request starts with. -/
theorem requestOk_present (hs : Coherent hash s) {expiry : Nat → RefreshClaims → Bool}
    (hexpiry : AdmitsUnexpired expiry) (token : Token) :
    RequestOk hash s ⟨some token, s.clock,
      if token.accepted expiry s.clock then .parsed else .done .invalidToken,
      if token.unexpired s.clock then s.spent.lookup token else none⟩ := by
  refine ⟨hs.clock, ?_, ?_, ?_⟩
  · rintro hopen text ⟨⟩
    simp [Token.accepted, Request.isDone] at hopen
  · intro session hstage
    split at hstage <;> cases hstage
  · intro family hfamily
    dsimp only at hfamily ⊢
    split at hfamily
    · rename_i hunexpired
      have haccepted : token.accepted expiry s.clock = true := by
        cases token with
        | signed claims signature => exact hexpiry _ _ (by simpa [Token.unexpired] using hunexpired)
        | forged text => cases hunexpired
        | legacy text => rfl
      obtain ⟨before, after, hspent, -⟩ := lookup_eq_some_iff.mp hfamily
      rw [if_pos haccepted]
      exact ⟨token, rfl, by simp [hspent]⟩
    · cases hfamily

/-- Where the server starts: a coherent table whose families are within the limit, no
request in flight. -/
structure Start (hash : Token → H) (s : AuthState H) : Prop where
  coherent : Coherent hash s
  bounded : Bounded s
  requests : s.requests = []
  grants : s.grants = []

theorem Start.sound (h : Start hash s) : Sound hash s s :=
  ⟨h.coherent, h.bounded, by simp [h.requests], by simp [h.grants], by simp [h.grants]⟩

section

variable [DecidableEq H] {expiry : Nat → RefreshClaims → Bool}

/-- **One step**, of the clock, of a new request or of one in flight. -/
theorem stepped_authStep (hinj : Function.Injective hash) (hexpiry : AdmitsUnexpired expiry)
    (ttl : Nat) (h : Sound hash start s) (op : AuthOp) (hop : op.afterEpoch = true) :
    Stepped hash start s (authStep hash expiry ttl s op) := by
  have hs := h.coherent
  cases op with
  | tick clock =>
    have hclock : 0 < clock := by simpa [AuthOp.afterEpoch] using hop
    exact .of_sessions_eq hinj h hclock rfl rfl rfl rfl fun r hr => .inl hr
  | present token =>
    refine .of_sessions_eq hinj h hs.clock rfl rfl rfl rfl fun r hr => ?_
    rcases mem_append.mp hr with hr | hr
    · exact .inl hr
    · rw [mem_singleton.mp hr]
      exact .inr (requestOk_present hs hexpiry token)
  | signOut sessionId =>
    refine .of_sessions_eq hinj h hs.clock rfl rfl rfl rfl fun r hr => ?_
    rcases mem_append.mp hr with hr | hr
    · exact .inl hr
    · rw [mem_singleton.mp hr]
      exact .inr ⟨hs.clock, by simp, by simp, by simp⟩
  | advance i choice =>
    cases hi : s.requests[i]? with
    | none =>
      simp only [authStep, hi]
      exact .of_sessions_eq hinj h hs.clock rfl rfl rfl rfl fun r hr => .inl hr
    | some r =>
      simp only [authStep, hi]
      exact .of_served hinj h i
        (keepsServing hinj hs h.bounded (h.requests r (mem_of_getElem? hi)) ttl choice)
        (families_serve ttl s r choice)

variable {ops : List AuthOp} {r : Request H}

/-! ## A request comes to its end -/

/-- How many accesses a request is away from its end, if it does not exchange its
token. -/
def Stage.rank : Stage H → Nat
  | .parsed => 6
  | .lookup => 5
  | .legacyLookup => 4
  | .consumed _ => 3
  | .revoke _ _ => 2
  | .revokeRows _ _ => 1
  | .rotate _ => 0
  | .lost _ => 0
  | .done _ => 0

theorem afterLookup_rank (session : SessionRow H) (token : Token) (nowSec : Nat) :
    (afterLookup hash session token nowSec).rank ≤ 3 := by
  unfold afterLookup
  split
  · split
    · simp [Stage.rank]
    · split <;> simp [Stage.rank]
  · simp [Stage.rank]
  · split <;> simp [Stage.rank]
  · simp [Stage.rank]

theorem serve_reuseOf (ttl : Nat) (s : AuthState H) (r : Request H) (choice : Choice) :
    (serve hash ttl s r choice).2.reuseOf = r.reuseOf := by
  unfold serve
  dsimp only
  repeat' split
  all_goals rfl

variable {family : Str}

/-- A request with a spent token is one access closer to its end after each access. -/
theorem serve_rank (hr : RequestOk hash s r) (hfamily : r.reuseOf = some family)
    (ttl : Nat) (choice : Choice) :
    (serve hash ttl s r choice).2.stage.rank ≤ r.stage.rank - 1 := by
  have hreuse := hr.reuse family hfamily
  obtain ⟨presented, nowSec, stage, reuseOf⟩ := r
  cases stage with
  | parsed => exact le_rfl
  | lookup =>
    obtain ⟨token, rfl, -⟩ := hreuse
    have hbound : ∀ session : SessionRow H, (afterLookup hash session token nowSec).rank ≤ 3 :=
      fun session => afterLookup_rank session token nowSec
    simp only [serve]
    split
    · split
      · exact (hbound _).trans (by simp [Stage.rank])
      · exact Nat.zero_le _
    · split
      · exact (hbound _).trans (by simp [Stage.rank])
      · exact le_rfl
  | legacyLookup =>
    obtain ⟨text, rfl, -⟩ := hreuse
    simp only [serve]
    split
    · exact afterLookup_rank _ _ _
    · exact Nat.zero_le _
  | consumed session =>
    simp only [serve]
    split
    · exact le_rfl
    · exact Nat.zero_le _
  | rotate session | lost sessionId => exact hreuse.elim
  | revoke sessionId reply =>
    simp only [serve]
    split
    · exact Nat.zero_le _
    · exact le_rfl
  | revokeRows session reply => exact le_rfl
  | done reply => exact le_rfl

/-- The step is an access of the request. -/
def AuthOp.advances (i : Nat) : AuthOp → Bool
  | .advance j _ => i = j
  | _ => false

theorem request_step (h : Sound hash start s) {i : Nat}
    (hi : s.requests[i]? = some r) (hfamily : r.reuseOf = some family) (ttl : Nat) (op : AuthOp) :
    ∃ r', (authStep hash expiry ttl s op).requests[i]? = some r' ∧ r'.reuseOf = some family ∧
      r'.stage.rank ≤ r.stage.rank - (if op.advances i then 1 else 0) := by
  have hlt : i < s.requests.length := (List.getElem?_eq_some_iff.mp hi).1
  cases op with
  | tick clock => exact ⟨r, hi, hfamily, le_rfl⟩
  | present token | signOut sessionId =>
    exact ⟨r, (getElem?_append_left hlt).trans hi, hfamily, le_rfl⟩
  | advance j choice =>
    by_cases hij : i = j
    · subst hij
      refine ⟨(serve hash ttl s r choice).2, ?_, (serve_reuseOf ttl s r choice).trans hfamily, ?_⟩
      · simp only [authStep, hi]
        exact getElem?_set_self hlt
      · simpa [AuthOp.advances] using
          serve_rank (h.requests r (mem_of_getElem? hi)) hfamily ttl choice
    · refine ⟨r, ?_, hfamily, by simp [AuthOp.advances, hij]⟩
      simp only [authStep]
      split
      · exact hi
      · exact (getElem?_set_ne (Ne.symm hij)).trans hi

section

variable (hinj : Function.Injective hash) (hexpiry : AdmitsUnexpired expiry) {ttl : Nat}
  (hsafe : Safe (authStep hash expiry ttl) (fun _ op => op.afterEpoch = true) s ops)
  (h : Sound hash start s)
include hinj hexpiry hsafe h

theorem sound_run : Sound hash start (run (authStep hash expiry ttl) s ops) :=
  invariant (I := Sound hash start)
    (fun _ op hop hsound => (stepped_authStep hinj hexpiry ttl hsound op hop).sound) hsafe h

theorem request_run {i : Nat} (hi : s.requests[i]? = some r) (hfamily : r.reuseOf = some family) :
    ∃ r', (run (authStep hash expiry ttl) s ops).requests[i]? = some r' ∧ r'.reuseOf = some family ∧
      r'.stage.rank ≤ r.stage.rank - ops.countP (·.advances i) := by
  induction ops generalizing s r with
  | nil => exact ⟨r, hi, hfamily, le_rfl⟩
  | cons op ops ih =>
    obtain ⟨hop, hrest⟩ := hsafe
    obtain ⟨r₁, hi₁, hfamily₁, hrank₁⟩ := request_step h hi hfamily ttl op
    obtain ⟨r', hi', hfamily', hrank'⟩ :=
      ih hrest (stepped_authStep hinj hexpiry ttl h op hop).sound hi₁ hfamily₁
    refine ⟨r', hi', hfamily', ?_⟩
    rw [countP_cons]
    omega

/-! ## Single use -/

/-- The exchanges on rows of a family. -/
def grantsOf (s : AuthState H) (family : Str) : List (Grant H) :=
  s.grants.filter (·.row.family = family)

/-- A family that is revoked stays revoked and gets no further token. -/
theorem familyRevoked_run (hrevoked : FamilyRevoked s family) :
    FamilyRevoked (run (authStep hash expiry ttl) s ops) family ∧
      grantsOf (run (authStep hash expiry ttl) s ops) family = grantsOf s family := by
  have hinvariant := invariant
    (I := fun s' => Sound hash start s' ∧ FamilyRevoked s' family ∧
      grantsOf s' family = grantsOf s family) ?_ hsafe ⟨h, hrevoked, rfl⟩
  · exact hinvariant.2
  · rintro s' op hop ⟨hsound, hfamily, hgrants⟩
    obtain ⟨hsound', hevolves, hnew⟩ := stepped_authStep hinj hexpiry ttl hsound op hop
    refine ⟨hsound', hfamily.evolves hevolves, ?_⟩
    rw [← hgrants]
    rcases hnew with heq | ⟨grant, hmem, hlive, heq⟩
    · rw [grantsOf, heq, grantsOf]
    have hne : grant.row.family ≠ family := by
      intro hsame
      rw [hfamily grant.row hmem hsame] at hlive
      cases hlive
    rw [grantsOf, heq, filter_cons_of_neg (by simpa using hne), grantsOf]

end

/-- What is promised of a run `first` and its continuation `later`, where a grant counts
as late if its session had expired at `moment`. -/
structure SingleUse (moment : Grant H → Nat) (hash : Token → H)
    (expiry : Nat → RefreshClaims → Bool) (ttl : Nat) (s : AuthState H)
    (first later : List AuthOp) : Prop where
  /-- Every token is exchanged at most once, before the start or since. -/
  once : ((run (authStep hash expiry ttl) s first).grants.map (·.token) ++
    s.spent.map Prod.fst).Nodup
  /-- No grant on a revoked or expired session. -/
  live : ∀ grant ∈ (run (authStep hash expiry ttl) s first).grants, grant.row.revoked = false ∧
    ∃ expiry, grant.row.expiresAt = some expiry ∧ moment grant < expiry
  /-- A request with a token that had been exchanged ends after at most six accesses. -/
  ends : ∀ i r family, (run (authStep hash expiry ttl) s first).requests[i]? = some r →
    r.reuseOf = some family → 6 ≤ later.countP (·.advances i) →
    ∃ r', (run (authStep hash expiry ttl) s (first ++ later)).requests[i]? = some r' ∧
      r'.reuseOf = some family ∧ r'.isDone = true
  /-- When it has ended the family is revoked, and no token of it succeeds afterwards. -/
  revokes : ∀ r ∈ (run (authStep hash expiry ttl) s first).requests, r.isDone = true →
    ∀ family, r.reuseOf = some family →
    FamilyRevoked (run (authStep hash expiry ttl) s first) family ∧
      FamilyRevoked (run (authStep hash expiry ttl) s (first ++ later)) family ∧
      grantsOf (run (authStep hash expiry ttl) s (first ++ later)) family =
        grantsOf (run (authStep hash expiry ttl) s first) family

/-- **Refresh tokens are used once.**  In every interleaving of refresh requests,
sign-outs and revocations no token is exchanged twice; a request with an exchanged and
unexpired token comes to its end with its whole family revoked, and the family gets no
token afterwards; no grant is made on a session that is revoked, or whose expiry had
passed when the request read the clock. -/
theorem refresh_single_use (hinj : Function.Injective hash) (hexpiry : AdmitsUnexpired expiry)
    (ttl : Nat) (hstart : Start hash s) (first later : List AuthOp)
    (hsafe : Safe (authStep hash expiry ttl) (fun _ op => op.afterEpoch = true) s
      (first ++ later)) :
    SingleUse (·.reading) hash expiry ttl s first later := by
  obtain ⟨hfirst, hlater⟩ := safe_append.mp hsafe
  have hsound : Sound hash s (run (authStep hash expiry ttl) s first) :=
    sound_run hinj hexpiry hfirst hstart.sound
  refine ⟨?_, hsound.live, ?_, ?_⟩
  · have honce := hsound.coherent.spentOnce
    rw [hsound.ledger, map_append, map_map] at honce
    exact honce
  · intro i r family hi hfamily hcount
    obtain ⟨r', hi', hfamily', hrank⟩ := request_run hinj hexpiry hlater hsound hi hfamily
    have hlast := sound_run hinj hexpiry hlater hsound
    rw [run_append]
    refine ⟨r', hi', hfamily', ?_⟩
    have hbound : r.stage.rank ≤ 6 := by cases r.stage <;> simp [Stage.rank]
    have hreuse := (hlast.requests r' (mem_of_getElem? hi')).reuse family hfamily'
    have hzero : r'.stage.rank = 0 := by omega
    cases hstage : r'.stage with
    | rotate session | lost sessionId =>
      rw [hstage] at hreuse
      exact hreuse.elim
    | done reply => simp [Request.isDone, hstage]
    | _ => simp [hstage, Stage.rank] at hzero
  · intro r hr hdone family hfamily
    have hrevoked : FamilyRevoked (run (authStep hash expiry ttl) s first) family := by
      have hreuse := (hsound.requests r hr).reuse family hfamily
      cases hstage : r.stage with
      | done reply =>
        rw [hstage] at hreuse
        exact hreuse
      | _ => simp [Request.isDone, hstage] at hdone
    obtain ⟨hfamily', hgrants⟩ := familyRevoked_run hinj hexpiry hlater hsound hrevoked
    rw [run_append]
    exact ⟨hrevoked, hfamily', hgrants⟩

end

/-- A session that expires at 100, and its current token. -/
def sampleToken : Token := .signed ⟨['u'], ['s'], ['s'], 1, 0, 200⟩ 0

def sampleRow : SessionRow Token :=
  ⟨['s'], some ['u'], some sampleToken, some ['s'], some 1, none, some 100, none⟩

def sampleState : AuthState Token := ⟨99, [sampleRow], 1, [], [], []⟩

theorem start_sample : Start id sampleState := by
  refine ⟨⟨by decide, by decide, ?_, ?_, ?_, ?_, ?_, by decide, ?_, ?_⟩,
    fun family => (length_filter_le _ _).trans (by decide), rfl, rfl⟩
  all_goals simp [sampleState]
  · intro claims signature hjti
    refine ⟨?_, by simp [sampleRow]⟩
    intro heq
    simp only [sampleRow, sampleToken, Option.some.injEq, Token.signed.injEq] at heq
    rw [← heq.1] at hjti
    cases hjti
  · simp [sampleRow]

/-- The expiry of a token without tolerance. -/
def sampleExpiry (clock : Nat) (claims : RefreshClaims) : Bool := clock < claims.exp

/-- The token is exchanged and presented again. -/
theorem refresh_single_use_sample : Start id sampleState ∧
    SingleUse (·.reading) id sampleExpiry 3600 sampleState
      [.present sampleToken, .advance 0 .refuse, .advance 0 .refuse, .advance 0 (.sign 7),
        .present sampleToken] (List.replicate 6 (.advance 1 .refuse)) :=
  ⟨start_sample, refresh_single_use Function.injective_id
    (by simp [AdmitsUnexpired, sampleExpiry]) 3600 start_sample _ _ (by decide)⟩

/-- The expiry passes between the clock reading of a request and its update: the
request is granted on an expired session. -/
theorem granted_after_expiry : Start id sampleState ∧
    ¬ SingleUse (·.time) id sampleExpiry 3600 sampleState
      [.present sampleToken, .advance 0 .refuse, .advance 0 .refuse, .tick 101,
        .advance 0 (.sign 7)] [] := by
  refine ⟨start_sample, fun h => ?_⟩
  obtain ⟨-, expiry, hexpiry, hlt⟩ := h.live ⟨sampleToken, sampleRow, 99, 101⟩ (by decide)
  cases hexpiry
  simp at hlt

end Lux.Auth
