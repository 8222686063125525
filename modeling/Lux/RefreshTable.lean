import Mathlib.Data.List.Nodup
import Lux.RefreshTokens

/-!
# The sessions table under exchanges and revocations

A token that has been exchanged is no longer the current one of any live row, and it
never becomes current again because the tokens that take its place are new (`Spent`).
Two updates change the table: an exchange gives one live row a new token, a revocation
sets `revoked_at` in the rows of a family. Both keep the table coherent, and neither
takes a row's identity, its family or its revocation away (`Evolves`).
-/

namespace Lux.Auth

open StdText List SessionRow

variable {H : Type}

/-! ## Exchanged tokens -/

section

variable (hash : Token → H)

/-- Some row shows that the token has been exchanged. -/
def Located (sessions : List (SessionRow H)) (family : Str) : Token → Prop
  | .signed claims signature => ∃ row ∈ sessions, row.id = claims.sessionId ∧
      row.userId = some claims.sub ∧ row.family = claims.refreshTokenFamily ∧ row.family = family ∧
      claims.refreshGeneration ≤ row.generation ∧
      row.refreshTokenHash ≠ some (hash (.signed claims signature))
  | .forged _ => False
  | .legacy text => ∃ row ∈ sessions, row.refreshTokenHash = some (hash (.legacy text)) ∨
      row.legacyRefreshTokenHash = some (hash (.legacy text))

/-- The token has been exchanged for another one of the family. -/
structure Spent (sessions : List (SessionRow H)) (token : Token) (family : Str) : Prop where
  revoked : ∀ row ∈ sessions, row.refreshTokenHash = some (hash token) → row.revoked = true
  sameFamily : ∀ row ∈ sessions, row.refreshTokenHash = some (hash token) ∨
    row.legacyRefreshTokenHash = some (hash token) → token.claims? = none → row.family = family
  located : Located hash sessions family token

/-- What is true of the table and the exchanged tokens before and after every step.
Keys and current hashes are unique columns; a row without a family is alone in its
family; new tokens differ from all that have been in use. -/
structure Coherent (s : AuthState H) : Prop where
  clock : 0 < s.clock
  ids : (s.sessions.map (·.id)).Nodup
  unique : ∀ a ∈ s.sessions, ∀ b ∈ s.sessions, ∀ h, a.refreshTokenHash = some h →
    b.refreshTokenHash = some h → a = b
  alone : ∀ a ∈ s.sessions, ∀ b ∈ s.sessions, a.family = b.family → a.familyColumn = none → a = b
  fresh : ∀ row ∈ s.sessions, ∀ claims signature, s.nextJti ≤ claims.jti →
    row.refreshTokenHash ≠ some (hash (.signed claims signature)) ∧
      row.legacyRefreshTokenHash ≠ some (hash (.signed claims signature))
  legacyFamily : ∀ a ∈ s.sessions, ∀ b ∈ s.sessions, ∀ h, a.legacyRefreshTokenHash = some h →
    b.refreshTokenHash = some h → a.family = b.family
  legacyOnce : ∀ row ∈ s.sessions, row.legacyRefreshTokenHash ≠ none →
    ∀ text, row.refreshTokenHash ≠ some (hash (.legacy text))
  spentOnce : (s.spent.map Prod.fst).Nodup
  spentFresh : ∀ claims signature family, (.signed claims signature, family) ∈ s.spent →
    claims.jti < s.nextJti
  spent : ∀ token family, (token, family) ∈ s.spent → Spent hash s.sessions token family

end

/-- Coherence is about the table, the clock, the numbers and the exchanged tokens. -/
theorem Coherent.congr {hash : Token → H} {s s' : AuthState H} (hs : Coherent hash s)
    (hclock : 0 < s'.clock) (hsessions : s'.sessions = s.sessions) (hjti : s'.nextJti = s.nextJti)
    (hspent : s'.spent = s.spent) : Coherent hash s' where
  clock := hclock
  ids := hsessions ▸ hs.ids
  unique := hsessions ▸ hs.unique
  alone := hsessions ▸ hs.alone
  fresh := hsessions ▸ hjti ▸ hs.fresh
  legacyFamily := hsessions ▸ hs.legacyFamily
  legacyOnce := hsessions ▸ hs.legacyOnce
  spentOnce := hspent ▸ hs.spentOnce
  spentFresh := hspent ▸ hjti ▸ hs.spentFresh
  spent := hspent ▸ hsessions ▸ hs.spent

/-! ## What happens to a row -/

/-- A row keeps its identity and family, stays revoked, and keeps its generation as
long as it keeps its token; new tokens have new numbers. -/
structure RowMoves (hash : Token → H) (jti : Nat) (row row' : SessionRow H) : Prop where
  key : row'.id = row.id
  userId : row'.userId = row.userId
  column : row'.refreshTokenFamily = row.refreshTokenFamily
  revoked : row.revoked = true → row'.revoked = true
  token : (row'.refreshTokenHash = row.refreshTokenHash ∧ row'.generation = row.generation) ∨
    ∃ claims signature, row'.refreshTokenHash = some (hash (.signed claims signature)) ∧
      jti ≤ claims.jti

/-- What a step can do to the table and the ghosts. -/
structure Evolves (hash : Token → H) (s s' : AuthState H) : Prop where
  forth : ∀ row ∈ s.sessions, ∃ row' ∈ s'.sessions, RowMoves hash s.nextJti row row'
  back : ∀ row' ∈ s'.sessions, ∃ row ∈ s.sessions, RowMoves hash s.nextJti row row'
  jti : s.nextJti ≤ s'.nextJti
  spent : ∀ p ∈ s.spent, p ∈ s'.spent

variable {hash : Token → H} {s s' : AuthState H}

theorem RowMoves.refl (jti : Nat) (row : SessionRow H) : RowMoves hash jti row row :=
  ⟨rfl, rfl, rfl, id, .inl ⟨rfl, rfl⟩⟩

variable {row row' : SessionRow H} {matched : SessionRow H → Bool}

theorem RowMoves.familyColumn {jti : Nat} (h : RowMoves hash jti row row') :
    row'.familyColumn = row.familyColumn := by
  rw [SessionRow.familyColumn, SessionRow.familyColumn, h.column]

theorem RowMoves.family {jti : Nat} (h : RowMoves hash jti row row') :
    row'.family = row.family := by
  rw [SessionRow.family, SessionRow.family, h.familyColumn, h.key]

/-- Nothing happens to the table. -/
theorem Evolves.of_sessions_eq (hsessions : s'.sessions = s.sessions)
    (hjti : s.nextJti ≤ s'.nextJti)
    (hspent : ∀ p ∈ s.spent, p ∈ s'.spent) : Evolves hash s s' where
  forth row hrow := ⟨row, hsessions ▸ hrow, .refl _ row⟩
  back row hrow := ⟨row, hsessions ▸ hrow, .refl _ row⟩
  jti := hjti
  spent := hspent

variable {change : SessionRow H → SessionRow H} {sessions : List (SessionRow H)}

theorem mem_updateWhere :
    row' ∈ updateWhere matched change sessions ↔
      ∃ row ∈ sessions, (if matched row then change row else row) = row' := by
  rw [updateWhere, mem_map]

/-! ## Revocations -/

/-- A revocation changes the column `revoked_at` of some rows to a time. -/
structure Revocation (s s' : AuthState H) (change : SessionRow H → SessionRow H) : Prop where
  columns : ∀ row, ∃ revokedAt, change row = { row with revokedAt := revokedAt } ∧
    (row.revoked = true → (change row).revoked = true)
  sessions : s'.sessions = s.sessions.map change
  clock : s'.clock = s.clock
  nextJti : s'.nextJti = s.nextJti
  spent : s'.spent = s.spent

section

variable (h : Revocation s s' change)
include h

theorem Revocation.moves (row : SessionRow H) : RowMoves hash s.nextJti row (change row) := by
  obtain ⟨revokedAt, hchange, hrevoked⟩ := h.columns row
  exact ⟨by rw [hchange], by rw [hchange], by rw [hchange], hrevoked,
    .inl ⟨by rw [hchange], by rw [hchange]; rfl⟩⟩

theorem Revocation.tokens (row : SessionRow H) :
    (change row).refreshTokenHash = row.refreshTokenHash ∧
      (change row).legacyRefreshTokenHash = row.legacyRefreshTokenHash ∧
      (change row).generation = row.generation := by
  obtain ⟨revokedAt, hchange, -⟩ := h.columns row
  rw [hchange]
  exact ⟨rfl, rfl, rfl⟩

theorem Revocation.exists_of_mem {row' : SessionRow H} (hrow' : row' ∈ s'.sessions) :
    ∃ row ∈ s.sessions, change row = row' := by
  rwa [h.sessions, mem_map] at hrow'

theorem Revocation.evolves : Evolves hash s s' where
  forth row hrow := by
    rw [h.sessions]
    exact ⟨change row, mem_map_of_mem hrow, h.moves row⟩
  back row' hrow' := by
    obtain ⟨row, hrow, rfl⟩ := h.exists_of_mem hrow'
    exact ⟨row, hrow, h.moves row⟩
  jti := h.nextJti.ge
  spent := by simp [h.spent]

theorem Revocation.spent_keeps {token : Token} {family : Str}
    (hspent : Spent hash s.sessions token family) : Spent hash s'.sessions token family := by
  have hmoves : ∀ row, RowMoves hash s.nextJti row (change row) := h.moves
  refine ⟨?_, ?_, ?_⟩
  · intro row' hrow' hhash
    obtain ⟨row, hrow, rfl⟩ := h.exists_of_mem hrow'
    rw [(h.tokens row).1] at hhash
    exact (hmoves row).revoked (hspent.revoked row hrow hhash)
  · intro row' hrow' hhash
    obtain ⟨row, hrow, rfl⟩ := h.exists_of_mem hrow'
    rw [(h.tokens row).1, (h.tokens row).2.1] at hhash
    rw [(hmoves row).family]
    exact hspent.sameFamily row hrow hhash
  · have hlocated := hspent.located
    cases token with
    | signed claims signature =>
      obtain ⟨row, hrow, hid, huser, hclaimed, hfamily, hgeneration, hhash⟩ := hlocated
      refine ⟨change row, by rw [h.sessions]; exact mem_map_of_mem hrow, ?_⟩
      rw [(hmoves row).key, (hmoves row).userId, (hmoves row).family, (h.tokens row).1,
        (h.tokens row).2.2]
      exact ⟨hid, huser, hclaimed, hfamily, hgeneration, hhash⟩
    | forged text => exact hlocated
    | legacy text =>
      obtain ⟨row, hrow, hhash⟩ := hlocated
      refine ⟨change row, by rw [h.sessions]; exact mem_map_of_mem hrow, ?_⟩
      rw [(h.tokens row).1, (h.tokens row).2.1]
      exact hhash

/-- A revocation keeps the table coherent. -/
theorem Revocation.coherent (hs : Coherent hash s) : Coherent hash s' := by
  have hmoves : ∀ row, RowMoves hash s.nextJti row (change row) := h.moves
  refine ⟨h.clock ▸ hs.clock, ?_, ?_, ?_, ?_, ?_, ?_, h.spent ▸ hs.spentOnce, ?_, ?_⟩
  · have hids : (fun row : SessionRow H => row.id) ∘ change = (·.id) :=
      funext fun row => (hmoves row).key
    rw [h.sessions, map_map, hids]
    exact hs.ids
  · intro a' ha' b' hb' k hak hbk
    obtain ⟨a, ha, rfl⟩ := h.exists_of_mem ha'
    obtain ⟨b, hb, rfl⟩ := h.exists_of_mem hb'
    rw [(h.tokens _).1] at hak hbk
    rw [hs.unique a ha b hb k hak hbk]
  · intro a' ha' b' hb' hfamily hcolumn
    obtain ⟨a, ha, rfl⟩ := h.exists_of_mem ha'
    obtain ⟨b, hb, rfl⟩ := h.exists_of_mem hb'
    rw [(hmoves a).family, (hmoves b).family] at hfamily
    rw [(hmoves a).familyColumn] at hcolumn
    rw [hs.alone a ha b hb hfamily hcolumn]
  · intro row' hrow' claims signature hjti
    obtain ⟨row, hrow, rfl⟩ := h.exists_of_mem hrow'
    rw [(h.tokens row).1, (h.tokens row).2.1]
    exact hs.fresh row hrow claims signature (h.nextJti ▸ hjti)
  · intro a' ha' b' hb' k hak hbk
    obtain ⟨a, ha, rfl⟩ := h.exists_of_mem ha'
    obtain ⟨b, hb, rfl⟩ := h.exists_of_mem hb'
    rw [(h.tokens _).2.1] at hak
    rw [(h.tokens _).1] at hbk
    rw [(hmoves a).family, (hmoves b).family]
    exact hs.legacyFamily a ha b hb k hak hbk
  · intro row' hrow' hlegacy
    obtain ⟨row, hrow, rfl⟩ := h.exists_of_mem hrow'
    rw [(h.tokens row).2.1] at hlegacy
    rw [(h.tokens row).1]
    exact hs.legacyOnce row hrow hlegacy
  · intro claims signature family hspent
    rw [h.spent] at hspent
    rw [h.nextJti]
    exact hs.spentFresh claims signature family hspent
  · intro token family hspent
    rw [h.spent] at hspent
    exact h.spent_keeps (hs.spent token family hspent)

end

/-! ## Exchanges -/

/-- What a successful exchange does: one live row whose current token is the presented
one gets a new token. -/
structure Exchange (hash : Token → H) (s s' : AuthState H) (token : Token) (claims : RefreshClaims)
    (signature : Nat) (row : SessionRow H) : Prop where
  mem : row ∈ s.sessions
  current : row.refreshTokenHash = some (hash token)
  live : row.revoked = false
  genuine : ∀ text, token ≠ .forged text
  identity : ∀ presented, token.claims? = some presented → row.id = presented.sessionId ∧
    row.userId = some presented.sub ∧ row.family = presented.refreshTokenFamily ∧
    presented.refreshGeneration ≤ claims.refreshGeneration
  generation : row.generation ≤ claims.refreshGeneration
  bounded : claims.refreshGeneration ≤ u64Max
  jti : claims.jti = s.nextJti
  rows : ∀ row', row' ∈ s'.sessions ↔
    row' = rotated hash token (.signed claims signature) claims row ∨ row' ∈ s.sessions ∧ row' ≠ row
  ids : s'.sessions.map (·.id) = s.sessions.map (·.id)
  clock : s'.clock = s.clock
  nextJti : s'.nextJti = s.nextJti + 1
  spent : s'.spent = (token, row.family) :: s.spent

namespace Exchange

variable {token : Token} {claims : RefreshClaims} {signature : Nat} {row : SessionRow H}

theorem rotated_generation (hbounded : claims.refreshGeneration ≤ u64Max) (next : Token) :
    (rotated hash token next claims row).generation = claims.refreshGeneration := by
  simp [rotated, SessionRow.generation, Option.filter, hbounded]

/-- The hash a row keeps of a token without claims: the exchanged one, or what it had. -/
theorem rotated_legacy (hash : Token → H) (token next : Token) (claims : RefreshClaims)
    (row : SessionRow H) :
    (rotated hash token next claims row).legacyRefreshTokenHash = some (hash token) ∧
        token.claims? = none ∨
      (rotated hash token next claims row).legacyRefreshTokenHash = row.legacyRefreshTokenHash ∧
        token.claims? ≠ none := by
  by_cases hclaims : token.claims? = none
  · exact .inl ⟨by simp [rotated, hclaims], hclaims⟩
  · exact .inr ⟨by simp [rotated, hclaims], hclaims⟩

variable (h : Exchange hash s s' token claims signature row)
include h

theorem rotated_mem : rotated hash token (.signed claims signature) claims row ∈ s'.sessions :=
  (h.rows _).mpr (.inl rfl)

theorem evolves : Evolves hash s s' := by
  have hmoves : RowMoves hash s.nextJti row
      (rotated hash token (.signed claims signature) claims row) :=
    ⟨rfl, rfl, rfl, fun hrevoked => hrevoked, .inr ⟨claims, signature, rfl, h.jti.ge⟩⟩
  refine ⟨?_, ?_, by rw [h.nextJti]; exact Nat.le_succ _, ?_⟩
  · intro other hother
    by_cases heq : other = row
    · subst heq
      exact ⟨_, h.rotated_mem, hmoves⟩
    · exact ⟨other, (h.rows other).mpr (.inr ⟨hother, heq⟩), .refl _ other⟩
  · intro other' hother'
    rcases (h.rows other').mp hother' with rfl | ⟨hother, -⟩
    · exact ⟨row, h.mem, hmoves⟩
    · exact ⟨other', hother, .refl _ other'⟩
  · intro p hp
    rw [h.spent]
    exact mem_cons_of_mem _ hp

variable (hs : Coherent hash s)
include hs

/-- A token that has been exchanged is not exchanged again. -/
theorem token_unspent (family : Str) : (token, family) ∉ s.spent := by
  intro hspent
  have hrevoked := (hs.spent token family hspent).revoked row h.mem h.current
  rw [h.live] at hrevoked
  cases hrevoked

/-- The new token is none that a row knows. -/
theorem new_hash_ne {other : SessionRow H} (hother : other ∈ s.sessions) :
    other.refreshTokenHash ≠ some (hash (.signed claims signature)) ∧
      other.legacyRefreshTokenHash ≠ some (hash (.signed claims signature)) :=
  hs.fresh other hother claims signature h.jti.ge

theorem token_ne_new : token ≠ .signed claims signature := by
  rintro rfl
  exact (h.new_hash_ne hs h.mem).1 h.current

variable (hinj : Function.Injective hash)
include hinj

/-- The presented token is spent from now on. -/
theorem spent_token :
    Spent hash s'.sessions token row.family := by
  have hcurrent : ∀ other ∈ s'.sessions, other.refreshTokenHash ≠ some (hash token) := by
    intro other hother hhash
    rcases (h.rows other).mp hother with rfl | ⟨hmem, hne⟩
    · exact h.token_ne_new hs (hinj (Option.some.inj hhash)).symm
    · exact hne (hs.unique other hmem row h.mem _ hhash h.current)
  refine ⟨fun other hother hhash => absurd hhash (hcurrent other hother), ?_, ?_⟩
  · rintro other hother (hhash | hhash) hclaims
    · exact absurd hhash (hcurrent other hother)
    · rcases (h.rows other).mp hother with rfl | ⟨hmem, -⟩
      · rfl
      · exact hs.legacyFamily other hmem row h.mem _ hhash h.current
  · cases htoken : token with
    | signed presented sign =>
      obtain ⟨hid, huser, hfamily, hgeneration⟩ := h.identity presented (by rw [htoken]; rfl)
      refine ⟨_, h.rotated_mem, hid, huser, hfamily, rfl, ?_, htoken ▸ hcurrent _ h.rotated_mem⟩
      rw [rotated_generation h.bounded]
      exact hgeneration
    | forged text => exact h.genuine text htoken
    | legacy text =>
      refine ⟨_, h.rotated_mem, .inr ?_⟩
      rcases rotated_legacy hash token (.signed claims signature) claims row with
        ⟨heq, -⟩ | ⟨-, hclaims⟩
      · rw [heq, htoken]
      · exact absurd (by rw [htoken]; rfl) hclaims

/-- Tokens that were spent stay spent. -/
theorem spent_keeps {old : Token}
    {family : Str} (hold : (old, family) ∈ s.spent) : Spent hash s'.sessions old family := by
  have hspent := hs.spent old family hold
  have hne : old ≠ token := by
    rintro rfl
    exact h.token_unspent hs family hold
  have hnew : hash (.signed claims signature) ≠ hash old := by
    intro heq
    have hjti := hs.spentFresh claims signature family ((hinj heq) ▸ hold)
    have := h.jti
    omega
  have hkept : ∀ other ∈ s.sessions, other ≠ row → other ∈ s'.sessions :=
    fun other hother hother' => (h.rows other).mpr (.inr ⟨hother, hother'⟩)
  refine ⟨?_, ?_, ?_⟩
  · intro other hother hhash
    rcases (h.rows other).mp hother with rfl | ⟨hmem, -⟩
    · exact absurd (Option.some.inj hhash) hnew
    · exact hspent.revoked other hmem hhash
  · intro other hother hhash hclaims
    rcases (h.rows other).mp hother with rfl | ⟨hmem, -⟩
    · rcases hhash with hhash | hhash
      · exact absurd (Option.some.inj hhash) hnew
      rcases rotated_legacy hash token (.signed claims signature) claims row with
        ⟨heq, -⟩ | ⟨heq, -⟩
      · rw [heq] at hhash
        exact absurd (hinj (Option.some.inj hhash)).symm hne
      · rw [heq] at hhash
        exact hspent.sameFamily row h.mem (.inr hhash) hclaims
    · exact hspent.sameFamily other hmem hhash hclaims
  · have hlocated := hspent.located
    cases old with
    | signed presented sign =>
      obtain ⟨other, hother, hid, huser, hclaimed, hfamily, hgeneration, hhash⟩ := hlocated
      by_cases heq : other = row
      · subst heq
        refine ⟨_, h.rotated_mem, hid, huser, hclaimed, hfamily, ?_,
          fun hhash => hnew (Option.some.inj hhash)⟩
        rw [rotated_generation h.bounded]
        exact hgeneration.trans h.generation
      · exact ⟨other, hkept other hother heq, hid, huser, hclaimed, hfamily, hgeneration, hhash⟩
    | forged text => exact hlocated
    | legacy text =>
      obtain ⟨other, hother, hhash⟩ := hlocated
      by_cases heq : other = row
      · subst heq
        rcases hhash with hhash | hhash
        · rw [h.current] at hhash
          exact absurd (hinj (Option.some.inj hhash)).symm hne
        · -- The row holds the hash of one exchanged token without claims already, so
          -- its current token has claims.
          rcases rotated_legacy hash token (.signed claims signature) claims other with
            ⟨-, hclaims⟩ | ⟨heq, -⟩
          · cases htoken : token with
            | signed presented sign => simp [htoken, Token.claims?] at hclaims
            | forged text' => exact absurd htoken (h.genuine text')
            | legacy text' =>
              exact absurd (htoken ▸ h.current) (hs.legacyOnce other hother (by simp [hhash]) text')
          · exact ⟨_, h.rotated_mem, .inr (heq.trans hhash)⟩
      · exact ⟨other, hkept other hother heq, hhash⟩

/-- An exchange keeps the table coherent. -/
theorem coherent : Coherent hash s' := by
  have hlegacy := rotated_legacy hash token (.signed claims signature) claims row
  refine ⟨h.clock ▸ hs.clock, h.ids ▸ hs.ids, ?_, ?_, ?_, ?_, ?_, ?_, ?_, ?_⟩
  · intro a ha b hb k hak hbk
    rcases (h.rows a).mp ha with rfl | ⟨ha, -⟩ <;> rcases (h.rows b).mp hb with rfl | ⟨hb, -⟩
    · rfl
    · exact absurd (hbk.trans hak.symm) (h.new_hash_ne hs hb).1
    · exact absurd (hak.trans hbk.symm) (h.new_hash_ne hs ha).1
    · exact hs.unique a ha b hb k hak hbk
  · intro a ha b hb hfamily hcolumn
    rcases (h.rows a).mp ha with rfl | ⟨ha, hane⟩ <;>
      rcases (h.rows b).mp hb with rfl | ⟨hb, hbne⟩
    · rfl
    · exact absurd (hs.alone row h.mem b hb hfamily hcolumn).symm hbne
    · exact absurd (hs.alone a ha row h.mem hfamily hcolumn) hane
    · exact hs.alone a ha b hb hfamily hcolumn
  · intro other hother presented sign hjti
    rw [h.nextJti] at hjti
    rcases (h.rows other).mp hother with rfl | ⟨hmem, -⟩
    · refine ⟨?_, ?_⟩
      · intro hhash
        have heq := hinj (Option.some.inj hhash)
        have := h.jti
        simp only [Token.signed.injEq] at heq
        rw [← heq.1] at hjti
        omega
      · rcases hlegacy with ⟨heq, hclaims⟩ | ⟨heq, -⟩
        · rw [heq]
          intro hhash
          rw [hinj (Option.some.inj hhash)] at hclaims
          cases hclaims
        · rw [heq]
          exact (hs.fresh row h.mem presented sign (by omega)).2
    · exact hs.fresh other hmem presented sign (by omega)
  · intro a ha b hb k hak hbk
    rcases (h.rows b).mp hb with rfl | ⟨hb, hbne⟩
    · -- The new token is in no legacy column.
      have hk : hash (.signed claims signature) = k := Option.some.inj hbk
      subst hk
      rcases (h.rows a).mp ha with rfl | ⟨ha, -⟩
      · rfl
      · exact absurd hak (h.new_hash_ne hs ha).2
    · rcases (h.rows a).mp ha with rfl | ⟨ha, -⟩
      · rcases hlegacy with ⟨heq, -⟩ | ⟨heq, -⟩
        · rw [heq] at hak
          exact absurd (hs.unique b hb row h.mem _ hbk (hak ▸ h.current)) hbne
        · rw [heq] at hak
          exact hs.legacyFamily row h.mem b hb k hak hbk
      · exact hs.legacyFamily a ha b hb k hak hbk
  · intro other hother hsome text
    rcases (h.rows other).mp hother with rfl | ⟨hmem, -⟩
    · intro hhash
      cases hinj (Option.some.inj hhash)
    · exact hs.legacyOnce other hmem hsome text
  · rw [h.spent, map_cons, nodup_cons]
    refine ⟨?_, hs.spentOnce⟩
    intro hmem
    obtain ⟨⟨old, family⟩, hold, rfl⟩ := mem_map.mp hmem
    exact h.token_unspent hs family hold
  · intro presented sign family hspent
    rw [h.spent, mem_cons] at hspent
    rw [h.nextJti]
    rcases hspent with heq | hspent
    · simp only [Prod.mk.injEq] at heq
      by_contra hjti
      exact (hs.fresh row h.mem presented sign (by omega)).1 (heq.1 ▸ h.current)
    · have := hs.spentFresh presented sign family hspent
      omega
  · intro old family hspent
    rw [h.spent, mem_cons] at hspent
    rcases hspent with heq | hspent
    · simp only [Prod.mk.injEq] at heq
      rw [heq.1, heq.2]
      exact h.spent_token hs hinj
    · exact h.spent_keeps hs hinj hspent

end Exchange

/-! ## The rows an update finds -/

theorem Coherent.eq_of_id (hs : Coherent hash s) {a b : SessionRow H} (ha : a ∈ s.sessions)
    (hb : b ∈ s.sessions) (hid : a.id = b.id) : a = b :=
  inj_on_of_nodup_map hs.ids ha hb hid

/-- A row without a family of its own is the only one of its family; the others carry
the family in their column. -/
theorem Coherent.column_of_family (hs : Coherent hash s) {a b : SessionRow H}
    (ha : a ∈ s.sessions) (hb : b ∈ s.sessions) (hfamily : a.family = b.family) (hne : a ≠ b) :
    a.refreshTokenFamily = some b.family ∧ b.family ≠ [] := by
  have hsome : a.familyColumn ≠ none := fun hcolumn => hne (hs.alone a ha b hb hfamily hcolumn)
  obtain ⟨family, hcolumn⟩ := Option.ne_none_iff_exists'.mp hsome
  have heq : a.family = family := by
    rw [SessionRow.family, hcolumn]
    rfl
  rw [familyColumn, Option.filter_eq_some_iff] at hcolumn
  rw [← hfamily, heq]
  exact ⟨hcolumn.1, by simpa using hcolumn.2⟩

theorem SessionRow.generation_le (row : SessionRow H) : row.generation ≤ u64Max := by
  rw [generation]
  cases h : row.refreshGeneration.filter (· ≤ u64Max) with
  | none => exact Nat.zero_le _
  | some generation =>
    rw [Option.filter_eq_some_iff] at h
    simpa using h.2

theorem findById_eq_some {sessionId : Str} (h : findById sessions sessionId = some row) :
    row ∈ sessions ∧ row.id = sessionId :=
  ⟨mem_of_find?_eq_some h, by simpa using find?_some h⟩

theorem findById_eq_none {sessionId : Str} (h : findById sessions sessionId = none)
    (hrow : row ∈ sessions) : row.id ≠ sessionId := by
  have := find?_eq_none.mp h row hrow
  simpa using this

/-- The update found no row: nothing changes. -/
theorem updateWhere_of_no_match
    (hmatch : sessions.filter matched = []) : updateWhere matched change sessions = sessions := by
  rw [filter_eq_nil_iff] at hmatch
  rw [updateWhere, map_congr_left fun row hrow => if_neg (hmatch row hrow), map_id']

theorem revocation_revokes (session : SessionRow H) {nowSec : Nat} (hnow : 0 < nowSec)
    (hsessions : s'.sessions =
      updateWhere (revokes session) (fun row => { row with revokedAt := some nowSec }) s.sessions)
    (hclock : s'.clock = s.clock) (hjti : s'.nextJti = s.nextJti) (hspent : s'.spent = s.spent) :
    Revocation s s' fun row =>
      if revokes session row then { row with revokedAt := some nowSec } else row := by
  refine ⟨?_, hsessions, hclock, hjti, hspent⟩
  intro row
  have hne : nowSec ≠ 0 := hnow.ne'
  by_cases hmatched : revokes session row = true
  · exact ⟨some nowSec, by rw [if_pos hmatched], fun _ => by simp [hmatched, revoked, hne]⟩
  · exact ⟨row.revokedAt, by rw [if_neg hmatched],
      fun hrevoked => by simpa [hmatched] using hrevoked⟩

/-- What a request knows that is about to exchange its token. -/
structure Snapshot (hash : Token → H) (s : AuthState H) (session : SessionRow H)
    (token : Token) : Prop where
  row : ∃ row ∈ s.sessions, row.id = session.id ∧ row.userId = session.userId ∧
    row.family = session.family ∧
    (row.refreshTokenHash = some (hash token) → row.generation = session.generation)
  claims : ∀ claims, token.claims? = some claims → session.id = claims.sessionId ∧
    session.userId = some claims.sub ∧ session.family = claims.refreshTokenFamily ∧
    claims.refreshGeneration = session.generation
  old : ∀ claims signature, token = .signed claims signature → claims.jti < s.nextJti

section

variable [DecidableEq H]

theorem rotates_iff {sessionId : Str} {tokenHash : H} {nowSec : Nat} {row : SessionRow H} :
    rotates sessionId tokenHash nowSec row = true ↔
      row.id = sessionId ∧ row.refreshTokenHash = some tokenHash ∧
        (∃ expiry, row.expiresAt = some expiry ∧ nowSec < expiry) ∧ row.revoked = false := by
  have hrevoked : (row.revokedAt = none ∨ row.revokedAt = some 0) ↔ row.revoked = false := by
    unfold revoked
    cases row.revokedAt <;> simp
  have hexpiry : row.expiresAt.any (nowSec < ·) = true ↔
      ∃ expiry, row.expiresAt = some expiry ∧ nowSec < expiry := by
    cases row.expiresAt <;> simp
  rw [← hrevoked, ← hexpiry]
  simp [rotates, and_assoc]

/-- The update found one row: an exchange. -/
theorem exchange_of_match (hs : Coherent hash s) {session row : SessionRow H} {token : Token}
    {nowSec ttl signature : Nat} (hsnapshot : Snapshot hash s session token)
    (hgenuine : ∀ text, token ≠ .forged text)
    (hmatch : s.sessions.filter (rotates session.id (hash token) nowSec) = [row])
    (hsessions : s'.sessions = updateWhere (rotates session.id (hash token) nowSec)
      (rotated hash token (.signed (nextClaims session s.nextJti nowSec ttl) signature)
        (nextClaims session s.nextJti nowSec ttl)) s.sessions)
    (hclock : s'.clock = s.clock) (hjti : s'.nextJti = s.nextJti + 1)
    (hspent : s'.spent = (token, row.family) :: s.spent) :
    Exchange hash s s' token (nextClaims session s.nextJti nowSec ttl) signature row := by
  have hmem : ∀ other, other ∈ s.sessions ∧ rotates session.id (hash token) nowSec other = true ↔
      other = row := by
    intro other
    rw [← mem_filter, hmatch, mem_singleton]
  obtain ⟨hrow, hrotates⟩ := (hmem row).mpr rfl
  obtain ⟨hid, hcurrent, -, hlive⟩ := rotates_iff.mp hrotates
  obtain ⟨known, hknown, hid', huser, hfamily, hgeneration⟩ := hsnapshot.row
  obtain rfl : known = row := hs.eq_of_id hknown hrow (hid'.trans hid.symm)
  have hle := session.generation_le
  have hnext : session.generation ≤
      (nextClaims session s.nextJti nowSec ttl).refreshGeneration := by
    simp only [nextClaims]
    omega
  refine
    { mem := hrow, current := hcurrent, live := hlive, genuine := hgenuine, identity := ?_,
      generation := (hgeneration hcurrent).trans_le hnext, bounded := ?_, jti := rfl, rows := ?_,
      ids := ?_, clock := hclock, nextJti := hjti, spent := hspent }
  · intro presented hpresented
    obtain ⟨hsid, hsub, hfam, hgen⟩ := hsnapshot.claims presented hpresented
    exact ⟨hid.trans hsid, huser.trans hsub, hfamily.trans hfam, hgen ▸ hnext⟩
  · simp only [nextClaims]
    have : 1 ≤ u64Max := by decide
    omega
  · intro other'
    rw [hsessions, mem_updateWhere]
    constructor
    · rintro ⟨other, hother, rfl⟩
      by_cases heq : rotates session.id (hash token) nowSec other = true
      · obtain rfl := (hmem other).mp ⟨hother, heq⟩
        exact .inl (if_pos heq)
      · rw [if_neg heq]
        exact .inr ⟨hother, fun h => heq (h ▸ hrotates)⟩
    · rintro (rfl | ⟨hother, hne⟩)
      · exact ⟨known, hrow, if_pos hrotates⟩
      · exact ⟨other', hother, if_neg fun h => hne ((hmem other').mp ⟨hother, h⟩)⟩
  · rw [hsessions, updateWhere, map_map]
    refine map_congr_left fun other _ => ?_
    simp only [Function.comp_apply]
    split
    · rfl
    · rfl

end

end Lux.Auth
