import Lux.GrantMeaning
import Lux.KeyedList

/-!
# Who sends a request, and the filter it runs with

What the table routes share: the parties of a request and how access depends on them, refusals
with their status, and the text that results from putting a grant's filter behind the caller's
(`combine_where`).
-/

namespace Lux

open StdText List GrantFilter

/-! ### The parties -/

/-- Who sends a request. A user comes with what is known of the user's grants. -/
inductive HttpAuthContext (γ : Type) where
  | operator | secret | studio | publishable | anonymous
  | user (grants : γ)

/-- A refused request: its status, and the text that becomes the `error` member of the body. -/
structure HttpError where
  status : Nat
  message : Str
deriving DecidableEq

/-- A refusal with a status. -/
def refuse {α : Type} (status : Nat) : Except Str α → Except HttpError α
  | .ok a => .ok a
  | .error message => .error ⟨status, message⟩

theorem refuse_eq_ok {α : Type} {status : Nat} {x : Except Str α} {a : α}
    (h : refuse status x = .ok a) : x = .ok a := by
  cases x with
  | error e => cases h
  | ok b => cases h; rfl

/-- The access check of the table routes. Full project access and a server without end-user
authentication are `free`; only a token user is looked at further. -/
def enforce {α γ : Type} (authEnabled : Bool) (auth : HttpAuthContext γ) (free : α)
    (check : γ → Except HttpError α) : Except HttpError α :=
  if authEnabled = false then .ok free
  else match auth with
    | .operator | .secret | .studio => .ok free
    | .anonymous | .publishable => .error ⟨401, str "unauthorized"⟩
    | .user grants => check grants

/-- `require_project_access`. -/
def requireProjectAccess {γ : Type} (authEnabled : Bool) (auth : HttpAuthContext γ) :
    Except HttpError Unit :=
  enforce authEnabled auth () fun _ =>
    .error ⟨403, str "a secret key is required for this route"⟩

/-! ### Filters -/

/-- `combine_where`. -/
def combineWhere (user grant : Str) : Str :=
  if trim user = [] then trim grant
  else if trim grant = [] then trim user
  else trim user ++ str " AND " ++ trim grant

/-- `parse_http_where_tokens`. -/
def parseHttpWhereTokens (text : Str) : Except Str (List Str) := do
  let tokens ← tokenizeWhere text
  if tokens = [] then .error (str "invalid where parameter") else .ok tokens

theorem parseHttpWhereTokens_eq_ok {text : Str} {tokens : List Str}
    (h : parseHttpWhereTokens text = .ok tokens) : tokenizeWhere text = .ok tokens := by
  obtain ⟨tokens', htok, hrest⟩ := KeyedList.bind_eq_ok.mp h
  split at hrest
  · cases hrest
  · cases hrest; exact htok

/-! ### The filter of a grant -/

variable {f : GrantFilter}

/-- A filter without conditions is written as none: one that is written as alternatives has some. -/
theorem grantFilter_eq_all_nil {clauses : List GrantClause} {qualifier : Option Str}
    (hf : grantFilter clauses qualifier = .ok f) (hnil : f.conditions = []) : f = .all [] := by
  cases f with
  | all cs => rw [show cs = [] from hnil]
  | any cs =>
    obtain rfl : cs = [] := hnil
    by_cases hne : clauses = []
    · subst hne
      cases hf
    · cases writtenAs_of_grantFilter hne hf

theorem GrantFilter.chunks_ne_nil (h : f.conditions ≠ []) : f.chunks ≠ [] := by
  obtain ⟨c, -, rest, htokens⟩ := tokens_eq_cons h
  intro hnil
  rw [tokens, hnil] at htokens
  cases htokens

/-- The text of some conditions is not empty: there is a blank behind the first column. -/
theorem GrantFilter.text_ne_nil (h : f.conditions ≠ []) : f.text ≠ [] := by
  have hcond : ∀ c : Condition, ∃ d rest, condChunks c = word c.field :: d :: rest := by
    intro c
    rw [condChunks]
    split <;> exact ⟨_, _, rfl⟩
  have hjoin : ∀ w cs, cs ≠ [] → chunkText (joinChunks w cs) ≠ [] := by
    intro w cs hcs
    obtain ⟨c, cs, rfl⟩ := exists_cons_of_ne_nil hcs
    obtain ⟨d, rest, hchunks⟩ := hcond c
    cases cs with
    | nil | cons e cs => simp [joinChunks, hchunks, chunkText, blankChunks]
  cases f with
  | all cs => exact hjoin _ cs h
  | any cs => exact hjoin _ cs h

theorem GrantFilter.mem_alternatives {c : Condition} (hc : c ∈ f.conditions) :
    ∃ w ∈ f.clauses, c ∈ w.alternatives := by
  cases f with
  | all cs => exact ⟨.one c, mem_map_of_mem hc, by simp [WhereClause.alternatives]⟩
  | any cs => exact ⟨mkGroup cs, by simp [clauses], by rwa [alternatives_mkGroup]⟩

/-! ### The combined text -/

/-- A text that goes on with solid chunks ends in none. -/
theorem getLast?_append_blankChunks (chunks : List (Str × Str)) : ∀ s : Str, Solid s →
    (∀ c ∈ chunks, Solid c.1) →
    ∀ c ∈ (s ++ blankChunks chunks).getLast?, isWhitespace c = false := by
  induction chunks with
  | nil =>
    intro s hs _
    rw [blankChunks, flatMap_nil, append_nil]
    exact hs.2.2
  | cons d chunks ih =>
    intro s hs hsolid
    obtain ⟨hne, -, hlast⟩ := hsolid d (by simp)
    have hjoin : s ++ blankChunks (d :: chunks) = (s ++ ' ' :: d.1) ++ blankChunks chunks := by
      simp [blankChunks]
    have hgrow : Solid (s ++ ' ' :: d.1) := by
      refine ⟨by simp, ?_, ?_⟩
      · rw [head?_append_of_ne_nil _ hs.1]
        exact hs.2.1
      · have hend : (s ++ ' ' :: d.1).getLast? = d.1.getLast? := by
          rw [append_cons, getLast?_append_of_ne_nil _ hne]
        rw [hend]
        exact hlast
    rw [hjoin]
    exact ih _ hgrow fun c hc => hsolid c (by simp [hc])

/-- Trimming leaves a text of solid chunks alone. -/
theorem trim_chunkText {chunks : List (Str × Str)} (hsolid : ∀ c ∈ chunks, Solid c.1) :
    trim (chunkText chunks) = chunkText chunks := by
  cases chunks with
  | nil => exact trim_nil
  | cons d chunks =>
    have hd := hsolid d (by simp)
    refine trim_eq_self ?_ ?_
    · rw [chunkText, head?_append_of_ne_nil _ hd.1]
      exact hd.2.1
    · exact getLast?_append_blankChunks chunks d.1 hd fun c hc => hsolid c (by simp [hc])

/-- The caller's text with a filter of solid chunks behind it. -/
theorem combineWhere_chunkText {chunks : List (Str × Str)} (hne : chunks ≠ [])
    (hsolid : ∀ c ∈ chunks, Solid c.1) (user : Str) :
    combineWhere user (chunkText chunks) =
      if trim user = [] then chunkText chunks
      else trim user ++ blankChunks (word (str "AND") :: chunks) := by
  obtain ⟨d, chunks, rfl⟩ := exists_cons_of_ne_nil hne
  have hd : chunkText (d :: chunks) ≠ [] := by
    intro hnil
    exact (hsolid d (by simp)).1 (append_eq_nil_iff.mp hnil).1
  rw [combineWhere, trim_chunkText hsolid]
  by_cases huser : trim user = []
  · rw [if_pos huser, if_pos huser]
  · rw [if_neg huser, if_neg huser, if_neg hd]
    simp [chunkText, blankChunks, str]

end Lux
