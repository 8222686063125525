import Lux.RefreshTable

/-!
# A refresh request in flight

The decisive step of a refresh is one conditional update: it matches the session, the
hash of the presented token, an expiry after the request's clock reading, and no
revocation. A request that presents an exchanged token never reaches that update; it
ends in a revocation of the family or finds the family revoked already, whatever the
other requests do in the meantime (`ReuseOk`). For each stage one lemma says what the
next access keeps.
-/

namespace Lux.Auth

open StdText List

variable {H : Type} {hash : Token → H} {s s' : AuthState H}

/-! ## Requests -/

section

variable (hash : Token → H)

/-- Every row of the family is revoked. -/
def FamilyRevoked (s : AuthState H) (family : Str) : Prop :=
  ∀ row ∈ s.sessions, row.family = family → row.revoked = true

/-- Where a request stands that presented an exchanged token of the family. -/
def ReuseOk (s : AuthState H) (family : Str) (token : Option Token) : Stage H → Prop
  | .parsed => ∃ t, token = some t ∧ (t, family) ∈ s.spent
  | .lookup => ∃ t, token = some t ∧ (t, family) ∈ s.spent
  | .legacyLookup => ∃ text, token = some (.legacy text) ∧ (.legacy text, family) ∈ s.spent ∧
      ∀ row ∈ s.sessions, row.refreshTokenHash ≠ some (hash (.legacy text))
  | .consumed session => session.family = family ∧
      ∃ row ∈ s.sessions, row.id = session.id ∧ row.family = family ∧ row.revoked = true
  | .rotate _ => False
  | .lost _ => False
  | .revoke sessionId _ => ∃ row ∈ s.sessions, row.id = sessionId ∧ row.family = family
  | .revokeRows session _ => ∃ row ∈ s.sessions, row.id = session.id ∧ row.family = family ∧
      row.familyColumn = session.familyColumn
  | .done _ => FamilyRevoked s family

/-- What is true of every request in flight. -/
structure RequestOk (s : AuthState H) (r : Request H) : Prop where
  clock : 0 < r.nowSec
  genuine : r.isDone = false → ∀ text, r.token ≠ some (.forged text)
  rotate : ∀ session, r.stage = .rotate session → ∃ token, r.token = some token ∧
    Snapshot hash s session token
  reuse : ∀ family, r.reuseOf = some family → ReuseOk hash s family r.token r.stage

end

theorem FamilyRevoked.evolves {family : Str} (h : FamilyRevoked s family) (he : Evolves hash s s') :
    FamilyRevoked s' family := by
  intro row' hrow' hfamily
  obtain ⟨row, hrow, hmoves⟩ := he.back row' hrow'
  exact hmoves.revoked (h row hrow (hmoves.family ▸ hfamily))

theorem Snapshot.evolves {session : SessionRow H} {token : Token}
    (hinj : Function.Injective hash) (h : Snapshot hash s session token) (he : Evolves hash s s') :
    Snapshot hash s' session token := by
  obtain ⟨row, hrow, hid, huser, hfamily, hgeneration⟩ := h.row
  obtain ⟨row', hrow', hmoves⟩ := he.forth row hrow
  refine ⟨⟨row', hrow', hmoves.key.trans hid, hmoves.userId.trans huser,
    hmoves.family.trans hfamily, ?_⟩,
    h.claims, fun claims signature ht => (h.old claims signature ht).trans_le he.jti⟩
  intro hhash
  rcases hmoves.token with ⟨hsame, hgen⟩ | ⟨claims, signature, hnew, hjti⟩
  · rw [hgen]
    exact hgeneration (hsame ▸ hhash)
  · -- A new token is not the one this request has presented.
    rw [hnew, Option.some.injEq] at hhash
    have hold := h.old claims signature (hinj hhash).symm
    omega

theorem ReuseOk.evolves {family : Str} {token : Option Token} {stage : Stage H}
    (hinj : Function.Injective hash) (h : ReuseOk hash s family token stage)
    (he : Evolves hash s s') : ReuseOk hash s' family token stage := by
  have hkeep : ∀ row ∈ s.sessions, ∃ row' ∈ s'.sessions, row'.id = row.id ∧
      row'.family = row.family ∧ row'.familyColumn = row.familyColumn ∧
      (row.revoked = true → row'.revoked = true) := by
    intro row hrow
    obtain ⟨row', hrow', hmoves⟩ := he.forth row hrow
    exact ⟨row', hrow', hmoves.key, hmoves.family, hmoves.familyColumn, hmoves.revoked⟩
  cases stage with
  | parsed | lookup =>
    obtain ⟨t, ht, hspent⟩ := h
    exact ⟨t, ht, he.spent _ hspent⟩
  | legacyLookup =>
    obtain ⟨text, ht, hspent, hnone⟩ := h
    refine ⟨text, ht, he.spent _ hspent, ?_⟩
    intro row' hrow' hhash
    obtain ⟨row, hrow, hmoves⟩ := he.back row' hrow'
    rcases hmoves.token with ⟨hsame, -⟩ | ⟨claims, signature, hnew, -⟩
    · exact hnone row hrow (hsame ▸ hhash)
    · rw [hnew, Option.some.injEq] at hhash
      cases hinj hhash
  | consumed session =>
    obtain ⟨hsession, row, hrow, hid, hfamily, hrevoked⟩ := h
    obtain ⟨row', hrow', hid', hfamily', -, hrevoked'⟩ := hkeep row hrow
    exact ⟨hsession, row', hrow', hid'.trans hid, hfamily'.trans hfamily, hrevoked' hrevoked⟩
  | rotate session => exact h
  | lost sessionId => exact h
  | revoke sessionId reply =>
    obtain ⟨row, hrow, hid, hfamily⟩ := h
    obtain ⟨row', hrow', hid', hfamily', -, -⟩ := hkeep row hrow
    exact ⟨row', hrow', hid'.trans hid, hfamily'.trans hfamily⟩
  | revokeRows session reply =>
    obtain ⟨row, hrow, hid, hfamily, hcolumn⟩ := h
    obtain ⟨row', hrow', hid', hfamily', hcolumn', -⟩ := hkeep row hrow
    exact ⟨row', hrow', hid'.trans hid, hfamily'.trans hfamily, hcolumn'.trans hcolumn⟩
  | done reply => exact FamilyRevoked.evolves h he

/-- What the others do does not disturb a request. -/
theorem RequestOk.evolves {r : Request H} (hinj : Function.Injective hash) (h : RequestOk hash s r)
    (he : Evolves hash s s') : RequestOk hash s' r where
  clock := h.clock
  genuine := h.genuine
  rotate session hstage := by
    obtain ⟨token, htoken, hsnapshot⟩ := h.rotate session hstage
    exact ⟨token, htoken, hsnapshot.evolves hinj he⟩
  reuse family hfamily := (h.reuse family hfamily).evolves hinj he

/-! ## One access of a request -/

/-- What an access of a request keeps. The ghosts change together, and only by the
exchange of a token on a row that is not revoked and expires after the request's
clock reading. -/
structure Served (hash : Token → H) (s s' : AuthState H) (r : Request H) : Prop where
  coherent : Coherent hash s'
  evolves : Evolves hash s s'
  request : RequestOk hash s' r
  requests : s'.requests = s.requests
  ledger : s'.grants = s.grants ∧ s'.spent = s.spent ∨
    ∃ grant : Grant H, grant.row ∈ s.sessions ∧ grant.row.revoked = false ∧
      (∃ expiry, grant.row.expiresAt = some expiry ∧ grant.reading < expiry) ∧
      s'.grants = grant :: s.grants ∧ s'.spent = (grant.token, grant.row.family) :: s.spent

/-- The access reads only. -/
theorem Served.of_read {r : Request H} (hs : Coherent hash s) (hr : RequestOk hash s r) :
    Served hash s s r :=
  ⟨hs, .of_sessions_eq rfl le_rfl fun _ hp => hp, hr, rfl, .inl ⟨rfl, rfl⟩⟩

variable {presented : Option Token} {token : Token} {nowSec : Nat} {reuseOf : Option Str}

/-- A request goes on to a stage from which it does not exchange its token next. -/
theorem RequestOk.of_stage {nowSec' : Nat} {stage stage' : Stage H}
    (hr : RequestOk hash s ⟨presented, nowSec, stage, reuseOf⟩)
    (hclock : 0 < nowSec') (hopen : ∀ reply, stage ≠ .done reply)
    (hrotate : ∀ session, stage' ≠ .rotate session)
    (hreuse : ∀ family, reuseOf = some family → ReuseOk hash s family presented stage →
      ReuseOk hash s family presented stage') :
    RequestOk hash s ⟨presented, nowSec', stage', reuseOf⟩ where
  clock := hclock
  genuine _ text := by
    refine hr.genuine ?_ text
    cases stage with
    | done reply => exact absurd rfl (hopen reply)
    | _ => rfl
  rotate session h := absurd h (hrotate session)
  reuse family hfamily := hreuse family hfamily (hr.reuse family hfamily)

section

variable [DecidableEq H]

/-- What the lookup of a session guarantees. -/
structure Found (hash : Token → H) (session : SessionRow H) (token : Token) : Prop where
  byId : ∀ claims, token.claims? = some claims → session.id = claims.sessionId
  byHash : token.claims? = none → session.refreshTokenHash = some (hash token) ∨
    session.legacyRefreshTokenHash = some (hash token)

variable {session : SessionRow H}

theorem classify_current {token : Token} (h : classify hash session token = .current) :
    session.refreshTokenHash = some (hash token) ∧ session.revoked = false ∧
      ∀ claims, token.claims? = some claims → session.id = claims.sessionId ∧
        session.userId = some claims.sub ∧ session.family = claims.refreshTokenFamily ∧
        claims.refreshGeneration = session.generation := by
  unfold classify at h
  cases hclaims : token.claims? with
  | none =>
    simp only [hclaims] at h
    split at h
    · cases h
    split at h
    · rename_i hcurrent
      split at h
      · cases h
      · exact ⟨hcurrent, by simp_all, by simp⟩
    · cases h
  | some claims =>
    simp only [hclaims] at h
    split at h
    · cases h
    rename_i hidentity
    rw [not_not] at hidentity
    split at h
    · cases h
    split at h
    · cases h
    rename_i hcurrent
    push Not at hcurrent
    split at h
    · cases h
    · refine ⟨hcurrent.2, by simp_all, ?_⟩
      rintro _ ⟨⟩
      exact ⟨hidentity.1, hidentity.2.1, hidentity.2.2, by omega⟩

/-- A spent token is recognised, whichever row the lookup found. -/
theorem classify_spent (hs : Coherent hash s) {token : Token} {family : Str}
    (hspent : (token, family) ∈ s.spent) (hsession : session ∈ s.sessions)
    (hfound : Found hash session token) :
    session.family = family ∧ (classify hash session token = .reuse ∨
      classify hash session token = .revoked ∧ token.claims? = none ∧ session.revoked = true) := by
  obtain ⟨hrevoked, hfamily, hlocated⟩ := hs.spent token family hspent
  unfold classify
  cases token with
  | signed claims signature =>
    obtain ⟨row, hrow, hid, huser, hclaimed, hrowFamily, hgeneration, hhash⟩ := hlocated
    obtain rfl : row = session :=
      hs.eq_of_id hrow hsession (hid.trans (hfound.byId claims rfl).symm)
    refine ⟨hrowFamily, .inl ?_⟩
    simp only [Token.claims?]
    rw [if_neg (not_not.mpr ⟨hid, huser, hclaimed⟩), if_neg (Nat.not_lt.mpr hgeneration),
      if_pos (.inr hhash)]
  | forged text => exact hlocated.elim
  | legacy text =>
    have hhash := hfound.byHash rfl
    refine ⟨hfamily session hsession hhash rfl, ?_⟩
    simp only [Token.claims?]
    by_cases hlegacy : session.legacyRefreshTokenHash = some (hash (.legacy text))
    · exact .inl (if_pos hlegacy)
    · have hcurrent := hhash.resolve_right hlegacy
      have hdead := hrevoked session hsession hcurrent
      rw [if_neg hlegacy, if_pos hcurrent, if_pos hdead]
      exact .inr ⟨rfl, trivial, hdead⟩

theorem afterLookup_eq_rotate {session' : SessionRow H}
    (h : afterLookup hash session token nowSec = .rotate session') :
    classify hash session token = .current ∧ session' = session := by
  unfold afterLookup at h
  split at h
  · rename_i hclass
    split at h
    · cases h
    · split at h
      · cases h
      · cases h
        exact ⟨hclass, rfl⟩
  · cases h
  · split at h <;> cases h
  · cases h

/-- **After the lookup.**  A current token goes on to the update, a spent one to the
revocation of its family. -/
theorem RequestOk.afterLookup {stage : Stage H} (hs : Coherent hash s)
    (hr : RequestOk hash s ⟨some token, nowSec, stage, reuseOf⟩)
    (hopen : ∀ reply, stage ≠ .done reply) (hsession : session ∈ s.sessions)
    (hspent : ∀ family, reuseOf = some family →
      (token, family) ∈ s.spent ∧ Found hash session token) :
    RequestOk hash s ⟨some token, nowSec, afterLookup hash session token nowSec, reuseOf⟩ := by
  refine ⟨hr.clock, ?_, ?_, ?_⟩
  · intro _ text
    refine hr.genuine ?_ text
    cases stage with
    | done reply => exact absurd rfl (hopen reply)
    | _ => rfl
  · intro session' hstage
    obtain ⟨hclass, rfl⟩ := afterLookup_eq_rotate hstage
    obtain ⟨hhash, -, hclaims⟩ := classify_current hclass
    refine ⟨token, rfl, ⟨session', hsession, rfl, rfl, rfl, fun _ => rfl⟩, hclaims, ?_⟩
    rintro claims signature rfl
    by_contra hjti
    exact (hs.fresh session' hsession claims signature (Nat.not_lt.mp hjti)).1 hhash
  · intro family hfamily
    obtain ⟨hmem, hfound⟩ := hspent family hfamily
    obtain ⟨hsame, hclass | ⟨hclass, hclaims, hrevoked⟩⟩ :=
      classify_spent hs hmem hsession hfound
    · simp only [Auth.afterLookup, hclass]
      exact ⟨session, hsession, rfl, hsame⟩
    · simp only [Auth.afterLookup, hclass, hclaims, if_true]
      exact ⟨hsame, session, hsession, rfl, hsame, hrevoked⟩

/-- What the next access of a request keeps. -/
def KeepsServing (hash : Token → H) (ttl : Nat) (s : AuthState H) (r : Request H)
    (choice : Choice) :
    Prop :=
  Served hash s (serve hash ttl s r choice).1 (serve hash ttl s r choice).2

section

/-- No family has more rows than `find_rows_by_field` reads. -/
def Bounded (s : AuthState H) : Prop :=
  ∀ family, (s.sessions.filter (·.refreshTokenFamily = some family)).length ≤ rowLimit

omit [DecidableEq H] in
/-- A family within the limit is read whole. -/
theorem mem_findByFamily (hbounded : Bounded s) {family : Str} {row : SessionRow H} :
    row ∈ findByFamily s.sessions family ↔
      row ∈ s.sessions ∧ row.refreshTokenFamily = some family := by
  rw [findByFamily, take_of_length_le (hbounded family), mem_filter, decide_eq_true_eq]

variable {ttl : Nat} {choice : Choice} (hs : Coherent hash s)
include hs

theorem served_lookup
    (hr : RequestOk hash s ⟨some token, nowSec, .lookup, reuseOf⟩) :
    KeepsServing hash ttl s ⟨some token, nowSec, .lookup, reuseOf⟩ choice := by
  have hspent : ∀ family, reuseOf = some family → (token, family) ∈ s.spent := by
    intro family hfamily
    obtain ⟨t, ht, hmem⟩ := hr.reuse family hfamily
    cases ht
    exact hmem
  unfold KeepsServing
  cases hclaims : token.claims? with
  | some claims =>
    cases hfind : findById s.sessions claims.sessionId with
    | some session =>
      simp only [serve, hclaims, hfind]
      obtain ⟨hmem, hid⟩ := findById_eq_some hfind
      refine .of_read hs (hr.afterLookup hs (by simp) hmem ?_)
      intro family hfamily
      refine ⟨hspent family hfamily, ?_, by simp [hclaims]⟩
      intro claims' hclaims'
      rw [hclaims] at hclaims'
      cases hclaims'
      exact hid
    | none =>
      simp only [serve, hclaims, hfind]
      refine .of_read hs (hr.of_stage hr.clock (by simp) (by simp) ?_)
      -- A spent token is still located by its session.
      intro family hfamily _
      have hlocated := (hs.spent token family (hspent family hfamily)).located
      cases token with
      | signed presented signature =>
        cases hclaims
        obtain ⟨row, hrow, hid, -⟩ := hlocated
        exact absurd hid (findById_eq_none hfind hrow)
      | forged text => cases hclaims
      | legacy text => cases hclaims
  | none =>
    cases hfind : s.sessions.find? (·.refreshTokenHash = some (hash token)) with
    | some session =>
      simp only [serve, hclaims, hfind]
      have hhash : session.refreshTokenHash = some (hash token) := by
        simpa using find?_some hfind
      exact .of_read hs (hr.afterLookup hs (by simp) (mem_of_find?_eq_some hfind)
        fun family hfamily => ⟨hspent family hfamily, by simp [hclaims], fun _ => .inl hhash⟩)
    | none =>
      simp only [serve, hclaims, hfind]
      refine .of_read hs ⟨hr.clock, fun _ => hr.genuine rfl, by simp, ?_⟩
      intro family hfamily
      cases token with
      | signed claims signature => cases hclaims
      | forged text => exact absurd rfl (hr.genuine rfl text)
      | legacy text =>
        refine ⟨text, rfl, hspent family hfamily, ?_⟩
        intro row hrow
        simpa using find?_eq_none.mp hfind row hrow

theorem served_legacyLookup (hr : RequestOk hash s ⟨some token, nowSec, .legacyLookup, reuseOf⟩) :
    KeepsServing hash ttl s ⟨some token, nowSec, .legacyLookup, reuseOf⟩ choice := by
  have hreuse : ∀ family, reuseOf = some family → token.claims? = none ∧
      (token, family) ∈ s.spent ∧ ∀ row ∈ s.sessions, row.refreshTokenHash ≠ some (hash token) := by
    intro family hfamily
    obtain ⟨text, ht, hspent, hnone⟩ := hr.reuse family hfamily
    cases ht
    exact ⟨rfl, hspent, hnone⟩
  unfold KeepsServing
  cases hfind : s.sessions.find? (·.legacyRefreshTokenHash = some (hash token)) with
  | some session =>
    simp only [serve, hfind]
    have hhash : session.legacyRefreshTokenHash = some (hash token) := by
      simpa using find?_some hfind
    refine .of_read hs (hr.afterLookup hs (by simp) (mem_of_find?_eq_some hfind) ?_)
    intro family hfamily
    obtain ⟨hclaims, hspent, -⟩ := hreuse family hfamily
    exact ⟨hspent, by simp [hclaims], fun _ => .inr hhash⟩
  | none =>
    simp only [serve, hfind]
    refine .of_read hs (hr.of_stage hr.clock (by simp) (by simp) ?_)
    intro family hfamily _
    obtain ⟨hclaims, hspent, hnone⟩ := hreuse family hfamily
    have hlocated := (hs.spent token family hspent).located
    cases token with
    | signed claims signature => cases hclaims
    | forged text => exact hlocated.elim
    | legacy text =>
      obtain ⟨row, hrow, hhash | hhash⟩ := hlocated
      · exact absurd hhash (hnone row hrow)
      · have := find?_eq_none.mp hfind row hrow
        simp [hhash] at this

theorem served_consumed (hbounded : Bounded s)
    (hr : RequestOk hash s ⟨presented, nowSec, .consumed session, reuseOf⟩) :
    KeepsServing hash ttl s ⟨presented, nowSec, .consumed session, reuseOf⟩ choice := by
  unfold KeepsServing
  simp only [serve]
  split
  · refine .of_read hs (hr.of_stage hr.clock (by simp) (by simp) ?_)
    rintro family - ⟨-, row, hrow, hid, hfamily, -⟩
    exact ⟨row, hrow, hid, hfamily⟩
  · rename_i hnone
    refine .of_read hs (hr.of_stage hr.clock (by simp) (by simp) ?_)
    -- The row found is revoked, and no other row of its family is live.
    rintro family - ⟨hsession, row, hrow, hid, hfamily, hrevoked⟩ other hother hother'
    by_cases heq : other = row
    · rw [heq]
      exact hrevoked
    obtain ⟨hcolumn, hnonempty⟩ :=
      hs.column_of_family hother hrow (hother'.trans hfamily.symm) heq
    have hne : other.id ≠ session.id :=
      fun h => heq (hs.eq_of_id hother hrow (h.trans hid.symm))
    by_contra hlive
    have hread : other ∈ findByFamily s.sessions session.family := by
      rw [mem_findByFamily hbounded, hsession, ← hfamily]
      exact ⟨hother, hcolumn⟩
    refine hnone ⟨hsession.trans hfamily.symm ▸ hnonempty, any_eq_true.mpr ⟨other, hread, ?_⟩⟩
    rw [Bool.not_eq_true] at hlive
    simp [hne, hlive]

theorem served_lost {sessionId : Str}
    (hr : RequestOk hash s ⟨some token, nowSec, .lost sessionId, reuseOf⟩) :
    KeepsServing hash ttl s ⟨some token, nowSec, .lost sessionId, reuseOf⟩ choice := by
  have hnext : ∀ stage nowSec', 0 < nowSec' → (∀ session, stage ≠ .rotate session) →
      Served hash s s ⟨some token, nowSec', stage, reuseOf⟩ := fun stage nowSec' hnow hstage =>
    .of_read hs (hr.of_stage hnow (by simp) hstage fun family _ hreuse => hreuse.elim)
  unfold KeepsServing
  simp only [serve]
  split
  · exact hnext _ _ hr.clock (by simp)
  · split
    · exact hnext _ _ hs.clock (by simp)
    · exact hnext _ _ hr.clock (by simp)
    · exact hnext _ _ hr.clock (by simp)

theorem served_revoke {sessionId : Str} {reply : AuthReply}
    (hr : RequestOk hash s ⟨presented, nowSec, .revoke sessionId reply, reuseOf⟩) :
    KeepsServing hash ttl s ⟨presented, nowSec, .revoke sessionId reply, reuseOf⟩ choice := by
  unfold KeepsServing
  cases hfind : findById s.sessions sessionId with
  | none =>
    simp only [serve, hfind]
    refine .of_read hs (hr.of_stage hr.clock (by simp) (by simp) ?_)
    rintro family - ⟨row, hrow, hid, -⟩
    exact absurd hid (findById_eq_none hfind hrow)
  | some session =>
    simp only [serve, hfind]
    obtain ⟨hmem, hsession⟩ := findById_eq_some hfind
    refine .of_read hs (hr.of_stage hr.clock (by simp) (by simp) ?_)
    rintro family - ⟨row, hrow, hid, hfamily⟩
    obtain rfl := hs.eq_of_id hrow hmem (hid.trans hsession.symm)
    exact ⟨row, hrow, rfl, hfamily, rfl⟩

/-- **A revocation reaches the whole family** of the row it has found. -/
theorem familyRevoked_revokes {row : SessionRow H} {nowSec : Nat}
    (hnow : 0 < nowSec) (hrow : row ∈ s.sessions) (hid : row.id = session.id)
    (hcolumn : row.familyColumn = session.familyColumn)
    (hsessions : s'.sessions =
      updateWhere (revokes session) (fun row => { row with revokedAt := some nowSec }) s.sessions) :
    FamilyRevoked s' row.family := by
  have hne : nowSec ≠ 0 := hnow.ne'
  intro other' hother' hfamily
  rw [hsessions, mem_updateWhere] at hother'
  obtain ⟨other, hother, rfl⟩ := hother'
  have hsame : other.family = row.family := by
    rw [← hfamily]
    split
    · rfl
    · rfl
  have hmatched : revokes session other = true := by
    unfold revokes
    by_cases heq : other = row
    · subst heq
      cases hc : session.familyColumn with
      | none => simpa using hid
      | some family =>
        rw [hc, SessionRow.familyColumn, Option.filter_eq_some_iff] at hcolumn
        simpa using hcolumn.1
    obtain ⟨hfamilyColumn, hnonempty⟩ := hs.column_of_family hother hrow hsame heq
    have hsome : row.familyColumn ≠ none := fun hnone =>
      heq (hs.alone row hrow other hother hsame.symm hnone).symm
    obtain ⟨family, hc⟩ := Option.ne_none_iff_exists'.mp hsome
    have hfam : row.family = family := by
      rw [SessionRow.family, hc]
      rfl
    rw [← hcolumn, hc]
    simpa [hfam] using hfamilyColumn
  simp [hmatched, SessionRow.revoked, hne]

theorem served_revokeRows {reply : AuthReply}
    (hr : RequestOk hash s ⟨presented, nowSec, .revokeRows session reply, reuseOf⟩) :
    KeepsServing hash ttl s ⟨presented, nowSec, .revokeRows session reply, reuseOf⟩ choice := by
  have hrevocation : Revocation s (serve hash ttl s
      ⟨presented, nowSec, .revokeRows session reply, reuseOf⟩ choice).1 _ :=
    revocation_revokes session hr.clock rfl rfl rfl rfl
  refine ⟨hrevocation.coherent hs, hrevocation.evolves, ?_, rfl, .inl ⟨rfl, rfl⟩⟩
  refine ⟨hr.clock, by simp [serve, Request.isDone], by simp [serve], ?_⟩
  intro family hfamily
  obtain ⟨row, hrow, hid, rfl, hcolumn⟩ := hr.reuse family hfamily
  exact familyRevoked_revokes hs hr.clock hrow hid hcolumn rfl

theorem served_rotate (hinj : Function.Injective hash)
    (hr : RequestOk hash s ⟨some token, nowSec, .rotate session, reuseOf⟩) :
    KeepsServing hash ttl s ⟨some token, nowSec, .rotate session, reuseOf⟩ choice := by
  obtain ⟨t, ht, hsnapshot⟩ := hr.rotate session rfl
  cases ht
  have hgenuine : ∀ text, token ≠ .forged text := fun text h =>
    hr.genuine rfl text (congrArg some h)
  have hends : ∀ (s' : AuthState H) stage, (∀ session, stage ≠ .rotate session) →
      RequestOk hash s' ⟨some token, nowSec, stage, reuseOf⟩ := fun s' stage hstage =>
    ⟨hr.clock, fun _ => hr.genuine rfl, fun session h => absurd h (hstage session),
      fun family hfamily => (hr.reuse family hfamily).elim⟩
  unfold KeepsServing
  cases choice with
  | refuse => exact .of_read hs (hends s _ (by simp))
  | sign signature =>
    rcases hmatch : s.sessions.filter (rotates session.id (hash token) nowSec) with
      _ | ⟨row, _ | ⟨other, rest⟩⟩
    · simp only [serve, hmatch, updateWhere_of_no_match hmatch]
      refine ⟨?_, .of_sessions_eq rfl (Nat.le_succ _) fun _ hp => hp, hends _ _ (by simp), rfl,
        .inl ⟨rfl, rfl⟩⟩
      -- A number that was drawn in vain is not drawn again.
      exact { hs with
        fresh := fun row hrow claims signature hjti =>
          hs.fresh row hrow claims signature (Nat.le_of_succ_le hjti)
        spentFresh := fun claims signature family hspent =>
          Nat.lt_succ_of_lt (hs.spentFresh claims signature family hspent) }
    · have hexchange : Exchange hash s (serve hash ttl s
          ⟨some token, nowSec, .rotate session, reuseOf⟩ (.sign signature)).1 token
          (nextClaims session s.nextJti nowSec ttl) signature row := by
        apply exchange_of_match hs hsnapshot hgenuine hmatch
        all_goals simp only [serve, hmatch]
      have hrotates : rotates session.id (hash token) nowSec row = true :=
        (mem_filter.mp (hmatch ▸ mem_cons_self)).2
      obtain ⟨-, -, hexpiry, -⟩ := rotates_iff.mp hrotates
      refine ⟨hexchange.coherent hs hinj, hexchange.evolves, ?_, ?_, .inr
        ⟨⟨token, row, nowSec, s.clock⟩, hexchange.mem, hexchange.live, hexpiry, ?_,
          hexchange.spent⟩⟩
      · simp only [serve, hmatch]
        exact hends _ _ (by simp)
      · simp only [serve, hmatch]
      · simp only [serve, hmatch]
    · -- The key is a unique column.
      have hsub : [row, other].Sublist s.sessions :=
        (Sublist.cons_cons _ (Sublist.cons_cons _ (nil_sublist rest))).trans
          (hmatch ▸ filter_sublist)
      have hnodup := hs.ids.sublist (hsub.map (·.id))
      have hmem : ∀ found ∈ [row, other], found.id = session.id := by
        intro found hfound
        have : found ∈ s.sessions.filter (rotates session.id (hash token) nowSec) := by
          rw [hmatch]
          simp only [mem_cons] at hfound ⊢
          tauto
        exact (rotates_iff.mp (mem_filter.mp this).2).1
      simp [hmem] at hnodup

end

/-- **One access.**  Whatever stage a request has reached, its next access keeps what is
true of the table, of the request and of what the other requests rely on. -/
theorem keepsServing (hinj : Function.Injective hash) (hs : Coherent hash s)
    (hbounded : Bounded s) {r : Request H} (hr : RequestOk hash s r) (ttl : Nat)
    (choice : Choice) :
    KeepsServing hash ttl s r choice := by
  obtain ⟨presented, nowSec, stage, reuseOf⟩ := r
  cases stage with
  | parsed => exact .of_read hs (hr.of_stage hs.clock (by simp) (by simp) fun _ _ hreuse => hreuse)
  | consumed session => exact served_consumed hs hbounded hr
  | revoke sessionId reply => exact served_revoke hs hr
  | revokeRows session reply => exact served_revokeRows hs hr
  | done reply => exact .of_read hs hr
  | lookup =>
    cases presented with
    | none => exact .of_read hs hr
    | some token => exact served_lookup hs hr
  | legacyLookup =>
    cases presented with
    | none => exact .of_read hs hr
    | some token => exact served_legacyLookup hs hr
  | rotate session =>
    cases presented with
    | none => exact .of_read hs hr
    | some token => exact served_rotate hs hinj hr
  | lost sessionId =>
    cases presented with
    | none => exact .of_read hs hr
    | some token => exact served_lost hs hr

/-- No access changes the family of a row. -/
theorem families_serve (ttl : Nat) (s : AuthState H) (r : Request H) (choice : Choice) :
    (serve hash ttl s r choice).1.sessions.map (·.refreshTokenFamily) =
      s.sessions.map (·.refreshTokenFamily) := by
  have hupdate : ∀ (matched : SessionRow H → Bool) (change : SessionRow H → SessionRow H),
      (∀ row, (change row).refreshTokenFamily = row.refreshTokenFamily) →
      (updateWhere matched change s.sessions).map (·.refreshTokenFamily) =
        s.sessions.map (·.refreshTokenFamily) := by
    intro matched change hchange
    rw [updateWhere, map_map]
    refine map_congr_left fun row _ => ?_
    simp only [Function.comp_apply]
    split
    · exact hchange row
    · rfl
  unfold serve
  dsimp only
  repeat' split
  all_goals first
    | rfl
    | exact hupdate _ _ fun _ => rfl

end

end Lux.Auth
