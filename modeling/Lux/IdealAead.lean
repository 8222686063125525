import Lux.ByteCodec

/-!
# Ideal authenticated encryption and separated context strings

`Ideal` is the functionality that authenticated encryption stands for: opening
succeeds exactly on what one of the recorded seal calls produced, under the same
key, nonce and associated data, and returns what that call sealed. `ledger` is
an implementation, so the assumption can be met.

Associated data is often built by joining fields with a separator.
`sepJoin_inj` is the condition under which such a string names its fields: it is
enough that one of the two sides is free of the separator.
-/

namespace IdealAead

open ByteCodec List

structure Aead where
  sealBytes : (key nonce aad plaintext : Bytes) → Bytes
  openBytes : (key nonce aad sealed : Bytes) → Option Bytes

/-- The arguments of one seal call. -/
structure SealCall where
  key : Bytes
  nonce : Bytes
  aad : Bytes
  plaintext : Bytes
  deriving DecidableEq, Repr

/-- Nothing opens but what the recorded calls sealed. -/
structure Ideal (aead : Aead) (calls : List SealCall) : Prop where
  open_iff : ∀ key nonce aad sealed plaintext,
    aead.openBytes key nonce aad sealed = some plaintext ↔
      ⟨key, nonce, aad, plaintext⟩ ∈ calls ∧ sealed = aead.sealBytes key nonce aad plaintext
  seal_length : ∀ key nonce aad plaintext,
    (aead.sealBytes key nonce aad plaintext).length = plaintext.length + 16

/-- What a recorded call sealed opens to its plaintext. -/
theorem Ideal.open_seal {aead : Aead} {calls : List SealCall} (h : Ideal aead calls)
    {key nonce aad plaintext : Bytes} (hcall : ⟨key, nonce, aad, plaintext⟩ ∈ calls) :
    aead.openBytes key nonce aad (aead.sealBytes key nonce aad plaintext) = some plaintext :=
  (h.open_iff ..).mpr ⟨hcall, rfl⟩

/-- The tag appended by the ledger. -/
def ledgerTag : Bytes := List.replicate 16 0

/-- Sealing appends a constant tag; opening looks the call up. -/
def ledger (calls : List SealCall) : Aead where
  sealBytes _ _ _ plaintext := plaintext ++ ledgerTag
  openBytes key nonce aad sealed :=
    (calls.find? fun call => decide (call.key = key ∧ call.nonce = nonce ∧ call.aad = aad ∧
      sealed = call.plaintext ++ ledgerTag)).map SealCall.plaintext

theorem ledger_ideal (calls : List SealCall) : Ideal (ledger calls) calls where
  open_iff key nonce aad sealed plaintext := by
    constructor
    · intro h
      obtain ⟨call, hfind, rfl⟩ := Option.map_eq_some_iff.mp h
      have hmatch := find?_some hfind
      obtain ⟨rfl, rfl, rfl, rfl⟩ := of_decide_eq_true hmatch
      exact ⟨mem_of_find?_eq_some hfind, rfl⟩
    · rintro ⟨hmem, rfl⟩
      cases hfind : calls.find? fun call => decide (call.key = key ∧ call.nonce = nonce ∧
          call.aad = aad ∧ plaintext ++ ledgerTag = call.plaintext ++ ledgerTag) with
      | none =>
        have hno := find?_eq_none.mp hfind _ hmem
        simp at hno
      | some call =>
        have hmatch := find?_some hfind
        have hplain := (of_decide_eq_true hmatch).2.2.2
        have hsame := append_cancel_right hplain
        simp only [ledger, hfind, Option.map_some]
        rw [hsame]
  seal_length _ _ _ plaintext := by simp [ledger, ledgerTag]

/-! ## Separated fields -/

section Separated

variable {α : Type}

/-- The fields with the separator between them. -/
def sepJoin (sep : α) : List (List α) → List α
  | [] => []
  | [field] => field
  | field :: next :: fields => field ++ sep :: sepJoin sep (next :: fields)

/-- The first separator ends a field that has none. -/
theorem append_sep_inj {sep : α} {first second rest rest' : List α}
    (hfirst : sep ∉ first) (hsecond : sep ∉ second)
    (h : first ++ sep :: rest = second ++ sep :: rest') :
    first = second ∧ rest = rest' := by
  induction first generalizing second with
  | nil =>
    cases second with
    | nil => exact ⟨rfl, by simpa using h⟩
    | cons x second =>
      injection h with hx _
      exact absurd (hx ▸ mem_cons_self) hsecond
  | cons x first ih =>
    cases second with
    | nil =>
      injection h with hx _
      exact absurd (hx ▸ mem_cons_self) hfirst
    | cons y second =>
      injection h with hx htail
      obtain ⟨rfl, hrest⟩ := ih (not_mem_of_not_mem_cons hfirst)
        (not_mem_of_not_mem_cons hsecond) htail
      exact ⟨by rw [hx], hrest⟩

private theorem sepJoin_inj_free {sep : α} {fields fields' : List (List α)}
    (hlen : fields.length = fields'.length) (hfree : ∀ field ∈ fields, sep ∉ field)
    (hfree' : ∀ field ∈ fields', sep ∉ field)
    (h : sepJoin sep fields = sepJoin sep fields') : fields = fields' := by
  induction fields generalizing fields' with
  | nil =>
    exact (length_eq_zero_iff.mp hlen.symm).symm
  | cons field fields ih =>
    match fields', hlen with
    | field' :: fields', hlen =>
      match fields, fields', hlen with
      | [], [], _ => simpa [sepJoin] using h
      | next :: fields, next' :: fields', hlen =>
        obtain ⟨rfl, hrest⟩ := append_sep_inj (hfree _ mem_cons_self) (hfree' _ mem_cons_self) h
        have htail := ih (by simpa using hlen)
          (fun f hf => hfree f (mem_cons_of_mem _ hf))
          (fun f hf => hfree' f (mem_cons_of_mem _ hf)) hrest
        rw [htail]

variable [DecidableEq α]

/-- Every separator of the joined string is one between two fields or one inside
a field. -/
theorem count_sepJoin (sep : α) (field : List α) (fields : List (List α)) :
    (sepJoin sep (field :: fields)).count sep =
      fields.length + ((field :: fields).map (List.count sep)).sum := by
  induction fields generalizing field with
  | nil => simp [sepJoin]
  | cons next fields ih =>
    have htail := ih next
    simp only [sepJoin, count_append, count_cons_self, map_cons, sum_cons, length_cons] at htail ⊢
    omega

/-- **Separated fields are determined** by their join as soon as one side has no
separator inside a field: the other side cannot have one either. -/
theorem sepJoin_inj {sep : α} {fields fields' : List (List α)}
    (hlen : fields.length = fields'.length) (hfree : ∀ field ∈ fields, sep ∉ field)
    (h : sepJoin sep fields = sepJoin sep fields') : fields = fields' := by
  refine sepJoin_inj_free hlen hfree ?_ h
  match fields, fields', hlen with
  | [], [], _ => simp
  | field :: fields, field' :: fields', hlen =>
    have hcount := count_sepJoin sep field fields
    have hcount' := count_sepJoin sep field' fields'
    have hzero : ((field :: fields).map (count sep)).sum = 0 := by
      rw [sum_eq_zero_iff]
      intro n hn
      obtain ⟨f, hf, rfl⟩ := mem_map.mp hn
      exact count_eq_zero.mpr (hfree f hf)
    rw [h, hzero] at hcount
    simp only [length_cons] at hlen
    have hzero' : ((field' :: fields').map (count sep)).sum = 0 := by omega
    intro f hf
    have hf' := sum_eq_zero_iff.mp hzero' _ (mem_map_of_mem hf)
    exact count_eq_zero.mp hf'

end Separated

end IdealAead
