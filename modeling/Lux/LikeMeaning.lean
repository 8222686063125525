import Lux.TableFilter

/-!
# What `LIKE` means

A pattern matches a text that can be split among its characters: one character for `_` and for every
other character, any piece for `%`. The matcher tries a character of the pattern literally before
it takes it for a wildcard, so a `%` that meets a `%` of the text stands for just this character; it
knows no escape character; and it folds case by lower-casing text and pattern as a whole.
`sqlLikeMatches_iff` says what it accepts.

So `LIKE` has its meaning on every text exactly for the patterns without `%` and without an escaped
character (`sqlLikeMatches_means_iff`). A pattern with `%` has it on the texts without `%`.
-/

namespace Lux

open StdText List

/-! ### Splits -/

/-- What a character of a pattern stands for: any piece of text, or one character. -/
inductive LikeItem where
  | any
  | one (only : Option Char)

def likeItem (c : Char) : LikeItem :=
  if c = '%' then .any else .one (if c = '_' then none else some c)

/-- A pattern read with an escape character, or without one. -/
def likeItems (escape : Option Char) : Str → List LikeItem
  | [] => []
  | [c] => [likeItem c]
  | c :: d :: rest =>
    if some c = escape then .one (some d) :: likeItems escape rest
    else likeItem c :: likeItems escape (d :: rest)

/-- The text can be split among the items. -/
def Like (same : Char → Char → Prop) : List LikeItem → Str → Prop
  | [], text => text = []
  | .one only :: items, text =>
    ∃ c rest, text = c :: rest ∧ (∀ p ∈ only, same p c) ∧ Like same items rest
  | .any :: items, text => ∃ rest, rest <:+ text ∧ Like same items rest

/-- Two characters are the same, if need be when case is ignored. -/
def sameChar (ext : Externals) (caseInsensitive : Bool) (p c : Char) : Prop :=
  if caseInsensitive then ext.toLowercase [p] = ext.toLowercase [c] else p = c

/-- **The meaning of `LIKE` and `ILIKE`.** -/
def LikeMeans (ext : Externals) (escape : Option Char) (caseInsensitive : Bool)
    (actual pattern : Str) : Prop :=
  Like (sameChar ext caseInsensitive) (likeItems escape pattern) actual

/-- The splits the matcher finds: `%` is a wildcard only in front of another character. -/
def LikeFinds : Str → Str → Prop
  | text, [] => text = []
  | [], p :: more => p = '%' ∧ LikeFinds [] more
  | c :: text, p :: more =>
    if p = '_' ∨ p = c then LikeFinds text more
    else p = '%' ∧ ∃ rest, rest <:+ c :: text ∧ LikeFinds rest more

section Items

variable {c p : Char} {text more : Str}

theorem likeFinds_literal (h : p = '_' ∨ p = c) :
    LikeFinds (c :: text) (p :: more) ↔ LikeFinds text more := by
  rw [LikeFinds, if_pos h]

theorem likeFinds_wildcard (h : ¬ (p = '_' ∨ p = c)) :
    LikeFinds (c :: text) (p :: more) ↔
      p = '%' ∧ ∃ rest, rest <:+ c :: text ∧ LikeFinds rest more := by
  rw [LikeFinds, if_neg h]

/-- Behind an item comes an end of the text. -/
theorem LikeFinds.behind (h : LikeFinds text (p :: more)) :
    ∃ rest, rest <:+ text ∧ LikeFinds rest more := by
  cases text with
  | nil => exact ⟨[], suffix_rfl, h.2⟩
  | cons c text =>
    by_cases hp : p = '_' ∨ p = c
    · exact ⟨text, suffix_cons c text, (likeFinds_literal hp).mp h⟩
    · exact ((likeFinds_wildcard hp).mp h).2

/-- A `%` that does not meet a `%` is a wildcard. -/
theorem likeFinds_percent (h : ∀ c ∈ text.head?, c ≠ '%') :
    LikeFinds text ('%' :: more) ↔ ∃ rest, rest <:+ text ∧ LikeFinds rest more := by
  cases text with
  | nil => simp [LikeFinds]
  | cons c text =>
    have hne : ¬ ('%' = '_' ∨ '%' = c) := by
      rintro (hc | rfl)
      · exact absurd hc (by decide)
      · exact h '%' rfl rfl
    rw [likeFinds_wildcard hne, and_iff_right rfl]

/-- At the end of the text only `%` may be left. -/
theorem likeFinds_nil : LikeFinds [] more ↔ more.all (· == '%') = true := by
  induction more with
  | nil => simp [LikeFinds]
  | cons p more ih => rw [LikeFinds, ih, all_cons, Bool.and_eq_true, beq_iff_eq]

end Items

/-! ### The loop -/

/-- Since the last `%`, `tried` has been read down to `text` and `behind` down to `pattern`,
character by character. -/
inductive Read (behind tried : Str) : Str → Str → Prop
  | start : Read behind tried behind tried
  | step {p c : Char} {pattern text : Str} (h : p = '_' ∨ p = c)
      (hread : Read behind tried (p :: pattern) (c :: text)) : Read behind tried pattern text

/-- **The exchange.**  A split that starts later in the text does not get ahead of the literal
reading, since a `%` read literally stands for one character there as well. -/
theorem Read.exchange {behind tried pattern text s : Str} (hread : Read behind tried pattern text)
    (hs : s <:+ tried) (hfinds : LikeFinds s behind) :
    ∃ s', s' <:+ text ∧ LikeFinds s' pattern := by
  induction hread with
  | start => exact ⟨s, hs, hfinds⟩
  | step h _ ih =>
    obtain ⟨s', hs', hfinds'⟩ := ih
    obtain rfl | hs' := suffix_cons_iff.mp hs'
    · exact ⟨_, suffix_rfl, (likeFinds_literal h).mp hfinds'⟩
    · obtain ⟨s'', hs'', hfinds''⟩ := hfinds'.behind
      exact ⟨s'', hs''.trans hs', hfinds''⟩

/-- What is left to try: the text as it stands, or a later place for the last `%`. -/
def Hope (text pattern : Str) (retry : Option (Str × Str)) : Prop :=
  LikeFinds text pattern ∨ ∃ r s, retry = some r ∧ s <:+ r.2.tail ∧ LikeFinds s r.1

/-- The retry agrees with where the loop stands, and the fuel is enough for a pass over `bound`
characters of the pattern from each of `left` places. -/
structure Ready (bound left n : Nat) (text pattern : Str) (retry : Option (Str × Str)) : Prop where
  pattern_le : pattern.length ≤ bound
  text_le : text.length ≤ left
  fuel : left * (bound + 1) + pattern.length < n
  read (r : Str × Str) : retry = some r →
    r.1.length ≤ bound ∧ r.2.length ≤ left ∧ Read r.1 r.2 pattern text

section Loop

variable {bound left n : Nat} {c p : Char} {text pattern : Str} {retry : Option (Str × Str)}

theorem hope_again :
    Hope text pattern (some (pattern, text)) ↔ ∃ s, s <:+ text ∧ LikeFinds s pattern := by
  constructor
  · rintro (h | ⟨_, s, ⟨⟩, hs, h⟩)
    · exact ⟨text, suffix_rfl, h⟩
    · exact ⟨s, hs.trans (tail_suffix text), h⟩
  · rintro ⟨s, hs, h⟩
    cases text with
    | nil => exact .inr ⟨_, s, rfl, hs, h⟩
    | cons c text =>
      obtain rfl | hs := suffix_cons_iff.mp hs
      · exact .inl h
      · exact .inr ⟨_, s, rfl, hs, h⟩

/-- A later place for the last `%` gives a split behind what has been read since. -/
theorem Hope.exchange (hready : Ready bound left n text pattern retry)
    (h : Hope text pattern retry) : ∃ s, s <:+ text ∧ LikeFinds s pattern := by
  obtain h | ⟨r, s, hr, hs, h⟩ := h
  · exact ⟨text, suffix_rfl, h⟩
  · exact (hready.read r hr).2.2.exchange (hs.trans (tail_suffix _)) h

theorem ready_again (hpattern : pattern.length ≤ bound) (htext : text.length ≤ left)
    (hfuel : left * (bound + 1) + pattern.length < n) :
    Ready bound left n text pattern (some (pattern, text)) :=
  ⟨hpattern, htext, hfuel, by rintro _ ⟨⟩; exact ⟨hpattern, htext, .start⟩⟩

/-- The step behind a mismatch: it retries or gives up. -/
def again (n : Nat) (retry : Option (Str × Str)) : Bool :=
  retry.elim false fun r => likeLoop n r.2.tail r.1 (some (r.1, r.2.tail))

theorem likeLoop_nil : likeLoop (n + 1) (c :: text) [] retry = again n retry := by
  cases retry <;> rfl

theorem likeLoop_cons :
    likeLoop (n + 1) (c :: text) (p :: pattern) retry =
      if p = '_' ∨ p = c then likeLoop n text pattern retry
      else if p = '%' then likeLoop n (c :: text) pattern (some (pattern, c :: text))
      else again n retry := by
  cases retry <;> rfl

/-- **What the loop accepts**, from every state it can be in. -/
theorem likeLoop_iff (hready : Ready bound left n text pattern retry) :
    likeLoop n text pattern retry = true ↔ Hope text pattern retry := by
  induction n generalizing left text pattern retry with
  | zero => exact absurd hready.fuel (Nat.not_lt_zero _)
  | succ n ih =>
    obtain ⟨hpattern, htext, hfuel, hread⟩ := id hready
    match text, pattern with
    | [], pattern =>
      rw [likeLoop, ← likeFinds_nil]
      refine ⟨.inl, fun h => ?_⟩
      obtain ⟨s, hs, h⟩ := h.exchange hready
      rwa [suffix_nil.mp hs] at h
    | c :: text, pattern =>
      have hmismatch (hfails : ¬ LikeFinds (c :: text) pattern) :
          again n retry = true ↔ Hope (c :: text) pattern retry := by
        refine .trans ?_ (or_iff_right hfails).symm
        cases retry with
        | none => simp [again]
        | some r =>
          obtain ⟨hbehind, htried, -⟩ := hread r rfl
          obtain ⟨left, rfl⟩ := Nat.exists_eq_add_one.mpr (Nat.zero_lt_of_lt htext)
          rw [Nat.succ_mul] at hfuel
          have htail : r.2.tail.length ≤ left := by rw [length_tail]; omega
          exact (ih (ready_again hbehind htail (by omega))).trans (hope_again.trans (by simp))
      match pattern with
      | [] =>
        rw [likeLoop_nil]
        exact hmismatch (by simp [LikeFinds])
      | p :: pattern =>
        rw [length_cons] at hpattern hfuel
        rw [likeLoop_cons]
        by_cases hlit : p = '_' ∨ p = c
        · have hnext : Ready bound left n text pattern retry := by
            refine ⟨by omega, Nat.le_of_succ_le htext, by omega, fun r hr => ?_⟩
            exact (hread r hr).imp_right (And.imp_right (.step hlit))
          rw [if_pos hlit, ih hnext]
          simp only [Hope, likeFinds_literal hlit]
        · rw [if_neg hlit]
          by_cases hp : p = '%'
          · subst hp
            have hnext := @ready_again bound left n (c :: text) pattern (by omega) htext (by omega)
            rw [if_pos rfl, ih hnext, hope_again]
            refine ⟨fun h => .inl ((likeFinds_wildcard hlit).mpr ⟨rfl, h⟩), fun h => ?_⟩
            -- An older place for an older `%` is given up: the new one makes up for it.
            obtain ⟨s, hs, h⟩ := h.exchange hready
            obtain ⟨s', hs', h'⟩ := h.behind
            exact ⟨s', hs'.trans hs, h'⟩
          · rw [if_neg hp]
            exact hmismatch fun h => hp ((likeFinds_wildcard hlit).mp h).1

end Loop

/-! ### The matcher -/

variable (ext : Externals) (escape : Option Char) (caseInsensitive : Bool) (actual pattern : Str)

/-- Text and pattern as the matcher compares them. -/
def folded (s : Str) : Str := if caseInsensitive then ext.toLowercase s else s

/-- **What the matcher accepts**: it ends on every text and pattern, with this answer. -/
theorem sqlLikeMatches_iff :
    sqlLikeMatches ext actual pattern caseInsensitive = true ↔
      LikeFinds (folded ext caseInsensitive actual) (folded ext caseInsensitive pattern) := by
  refine (likeLoop_iff ⟨le_rfl, le_rfl, ?_, fun _ h => by cases h⟩).trans (or_iff_left ?_)
  · simp only [Nat.add_mul, Nat.mul_add]
    omega
  · intro ⟨_, _, h, _⟩
    cases h

/-! ### Patterns without escapes -/

/-- No character of the pattern is escaped: the escape character is at most its last one. -/
def Unescaped (escape : Option Char) (pattern : Str) : Prop := ∀ e ∈ escape, e ∉ pattern.dropLast

/-- A character is folded to one character, a wildcard to itself and nothing else to a wildcard. -/
structure FoldsChar (ext : Externals) (caseInsensitive : Bool) (f : Char → Char) (c : Char) :
    Prop where
  single : folded ext caseInsensitive [c] = [f c]
  percent : f c = '%' ↔ c = '%'
  underscore : f c = '_' ↔ c = '_'

/-- A text is folded character by character. -/
def FoldsByChar (ext : Externals) (caseInsensitive : Bool) (f : Char → Char) (s : Str) : Prop :=
  folded ext caseInsensitive s = s.map f ∧ ∀ c ∈ s, FoldsChar ext caseInsensitive f c

variable {ext escape caseInsensitive actual pattern}

theorem foldsByChar_id (s : Str) : FoldsByChar ext false id s :=
  ⟨(map_id s).symm, fun _ _ => ⟨rfl, .rfl, .rfl⟩⟩

theorem likeItems_of_unescaped (h : Unescaped escape pattern) :
    likeItems escape pattern = pattern.map likeItem := by
  induction pattern with
  | nil => rfl
  | cons c rest ih =>
    cases rest with
    | nil => rfl
    | cons d rest =>
      have hc : some c ≠ escape := by
        rintro rfl
        exact h c rfl mem_cons_self
      have hrest : Unescaped escape (d :: rest) := fun e he hmem =>
        h e he (mem_cons_of_mem c hmem)
      rw [likeItems, if_neg hc, ih hrest]
      rfl

theorem sameChar_iff {f : Char → Char} {p c : Char} (hp : FoldsChar ext caseInsensitive f p)
    (hc : FoldsChar ext caseInsensitive f c) : sameChar ext caseInsensitive p c ↔ f p = f c := by
  have hsingle : f p = f c ↔ folded ext caseInsensitive [p] = folded ext caseInsensitive [c] := by
    rw [hp.single, hc.single, singleton_inj]
  rw [hsingle]
  cases caseInsensitive with
  | true => exact .rfl
  | false => exact singleton_inj.symm

/-- **Without `%` in the pattern or without it in the text both splits are the same.** -/
theorem like_iff_likeFinds {f : Char → Char}
    (hpattern : ∀ c ∈ pattern, FoldsChar ext caseInsensitive f c)
    (hactual : ∀ c ∈ actual, FoldsChar ext caseInsensitive f c)
    (h : '%' ∉ pattern ∨ '%' ∉ actual) :
    Like (sameChar ext caseInsensitive) (pattern.map likeItem) actual ↔
      LikeFinds (actual.map f) (pattern.map f) := by
  induction pattern generalizing actual with
  | nil => simp [Like, LikeFinds]
  | cons p more ih =>
    obtain ⟨hp, hmore⟩ := forall_mem_cons.mp hpattern
    have hsub : ∀ {rest : Str}, rest <:+ actual →
        (Like (sameChar ext caseInsensitive) (more.map likeItem) rest ↔
          LikeFinds (rest.map f) (more.map f)) := by
      intro rest hrest
      refine ih hmore (fun c hc => hactual c (hrest.subset hc)) ?_
      exact h.imp (mt (mem_cons_of_mem p)) (mt (fun hc => hrest.subset hc))
    by_cases hpercent : p = '%'
    · -- the text has no `%`, so this one is a wildcard for both
      subst hpercent
      have htext : '%' ∉ actual := h.resolve_left (fun hn => hn mem_cons_self)
      have hhead : ∀ c ∈ (actual.map f).head?, c ≠ '%' := by
        intro c hc
        obtain ⟨d, hd, rfl⟩ := mem_map.mp (mem_of_mem_head? hc)
        exact fun heq => htext ((hactual d hd).percent.mp heq ▸ hd)
      have hitem : Like (sameChar ext caseInsensitive) (('%' :: more).map likeItem) actual ↔
          ∃ rest, rest <:+ actual ∧
            Like (sameChar ext caseInsensitive) (more.map likeItem) rest := .rfl
      rw [hitem, map_cons, hp.percent.mpr rfl, likeFinds_percent hhead]
      constructor
      · rintro ⟨rest, hrest, hlike⟩
        exact ⟨rest.map f, hrest.map f, (hsub hrest).mp hlike⟩
      · rintro ⟨_, hfolded, hfinds⟩
        obtain ⟨rest, hrest, rfl⟩ := suffix_map_iff.mp hfolded
        exact ⟨rest, hrest, (hsub hrest).mpr hfinds⟩
    · have hitem : Like (sameChar ext caseInsensitive) ((p :: more).map likeItem) actual ↔
          ∃ c rest, actual = c :: rest ∧ (p = '_' ∨ sameChar ext caseInsensitive p c) ∧
            Like (sameChar ext caseInsensitive) (more.map likeItem) rest := by
        rw [map_cons, likeItem, if_neg hpercent, Like]
        by_cases hone : p = '_' <;> simp [hone]
      rw [hitem]
      cases actual with
      | nil =>
        constructor
        · rintro ⟨c, rest, hnil, -⟩
          cases hnil
        · intro hfinds
          exact absurd (hp.percent.mp hfinds.1) hpercent
      | cons c text =>
        have hliteral : p = '_' ∨ sameChar ext caseInsensitive p c ↔ f p = '_' ∨ f p = f c := by
          rw [hp.underscore, sameChar_iff hp (hactual c mem_cons_self)]
        constructor
        · rintro ⟨_, _, ⟨⟩, hone, hlike⟩
          rw [map_cons, map_cons, likeFinds_literal (hliteral.mp hone)]
          exact (hsub (suffix_cons c text)).mp hlike
        · intro hfinds
          by_cases hone : f p = '_' ∨ f p = f c
          · rw [map_cons, map_cons, likeFinds_literal hone] at hfinds
            exact ⟨c, text, rfl, hliteral.mpr hone, (hsub (suffix_cons c text)).mpr hfinds⟩
          · rw [map_cons, map_cons, likeFinds_wildcard hone] at hfinds
            exact absurd (hp.percent.mp hfinds.1) hpercent

/-! ### Patterns the matcher gets wrong -/

/-- What text and pattern have in common in front is read literally. -/
theorem likeFinds_append (shared text pattern : Str) :
    LikeFinds (shared ++ text) (shared ++ pattern) ↔ LikeFinds text pattern := by
  induction shared with
  | nil => exact .rfl
  | cons c shared ih => exact (likeFinds_literal (.inr rfl)).trans ih

/-- A pattern without `%` is as long as the text. -/
theorem LikeFinds.length_eq {text pattern : Str} (h : LikeFinds text pattern)
    (hpercent : '%' ∉ pattern) : text.length = pattern.length := by
  induction pattern generalizing text with
  | nil => rw [show text = [] from by cases text <;> exact h]
  | cons p pattern ih =>
    obtain ⟨hp, hmore⟩ := not_or.mp (mt mem_cons.mpr hpercent)
    cases text with
    | nil => exact absurd h.1.symm hp
    | cons c text =>
      by_cases hone : p = '_' ∨ p = c
      · rw [length_cons, length_cons, ih ((likeFinds_literal hone).mp h) hmore]
      · exact absurd ((likeFinds_wildcard hone).mp h).1.symm hp

/-- A text is matched by itself as a pattern, in front of what is matched. -/
theorem like_self_append (shared : Str) {items : List LikeItem} {text : Str}
    (h : Like (· = ·) items text) :
    Like (· = ·) (shared.map likeItem ++ items) (shared ++ text) := by
  induction shared with
  | nil => exact h
  | cons c shared ih =>
    rw [map_cons, cons_append, likeItem]
    split
    · exact ⟨shared ++ text, suffix_cons c _, ih⟩
    · refine ⟨c, shared ++ text, rfl, ?_, ih⟩
      intro p hp
      split at hp
      · cases hp
      · exact (Option.some.inj (Option.mem_def.mp hp)).symm

/-- **A pattern with `%` misses a text.**  The last `%` meets a `%` with one more character behind
it, and what is left of the pattern is too short. -/
theorem exists_missed (hpercent : '%' ∈ pattern) :
    ∃ actual, Like (· = ·) (pattern.map likeItem) actual ∧ ¬ LikeFinds actual pattern := by
  obtain ⟨later, earlier, hreverse, hlast⟩ := eq_append_cons_of_mem (mem_reverse.mpr hpercent)
  obtain ⟨before, behind, rfl, hbehind⟩ :
      ∃ before behind, pattern = before ++ '%' :: behind ∧ '%' ∉ behind := by
    refine ⟨earlier.reverse, later.reverse, ?_, mt mem_reverse.mp hlast⟩
    rw [← reverse_reverse pattern, hreverse]
    simp
  refine ⟨before ++ '%' :: 'a' :: behind, ?_, ?_⟩
  · rw [map_append, map_cons]
    apply like_self_append
    refine ⟨behind, (suffix_cons 'a' behind).trans (suffix_cons '%' _), ?_⟩
    have hself : Like (· = ·) (behind.map likeItem ++ []) (behind ++ []) :=
      like_self_append behind rfl
    rwa [append_nil, append_nil] at hself
  · intro h
    have hrest := (likeFinds_append ['%'] ('a' :: behind) behind).mp
      ((likeFinds_append before _ _).mp h)
    have hlength := hrest.length_eq hbehind
    rw [length_cons] at hlength
    omega

/-- A shortest text that the items match. -/
def sample : List LikeItem → Str
  | [] => []
  | .any :: items => sample items
  | .one only :: items => only.getD '_' :: sample items

theorem like_sample (items : List LikeItem) : Like (· = ·) items (sample items) := by
  induction items with
  | nil => rfl
  | cons item items ih =>
    cases item with
    | any => exact ⟨_, suffix_rfl, ih⟩
    | one only =>
      refine ⟨_, _, rfl, ?_, ih⟩
      intro p hp
      rw [Option.mem_def.mp hp]
      rfl

/-- The characters of the pattern other than `%` are met one after the other. -/
theorem LikeFinds.sublist {text pattern : Str} (h : LikeFinds text pattern) :
    ∃ met, met <+ text ∧ Forall₂ (fun p c => p = '_' ∨ p = c) (pattern.filter (· != '%')) met := by
  induction pattern generalizing text with
  | nil => exact ⟨[], nil_sublist text, .nil⟩
  | cons p pattern ih =>
    by_cases hp : p = '%'
    · obtain ⟨rest, hrest, hfinds⟩ := h.behind
      obtain ⟨met, hmet, hall⟩ := ih hfinds
      refine ⟨met, hmet.trans hrest.sublist, ?_⟩
      rwa [filter_cons_of_neg (by simp [hp])]
    · cases text with
      | nil => exact absurd h.1 hp
      | cons c text =>
        by_cases hone : p = '_' ∨ p = c
        · obtain ⟨met, hmet, hall⟩ := ih ((likeFinds_literal hone).mp h)
          refine ⟨c :: met, hmet.cons_cons c, ?_⟩
          rw [filter_cons_of_pos (by simpa using hp)]
          exact .cons hone hall
        · exact absurd ((likeFinds_wildcard hone).mp h).1 hp

theorem sample_likeItem (c : Char) (items : List LikeItem) :
    sample (likeItem c :: items) = if c = '%' then sample items else c :: sample items := by
  rw [likeItem]
  by_cases hpercent : c = '%'
  · rw [if_pos hpercent, if_pos hpercent, sample]
  · rw [if_neg hpercent, if_neg hpercent, sample]
    by_cases hone : c = '_'
    · rw [if_pos hone, hone]
      rfl
    · rw [if_neg hone]
      rfl

section Escapes

variable {e : Char} (hpercent : e ≠ '%') (hone : e ≠ '_')
include hpercent

/-- A shortest text is no longer than the characters of the pattern other than `%`. -/
theorem length_sample_le (pattern : Str) :
    (sample (likeItems (some e) pattern)).length ≤ (pattern.filter (· != '%')).length := by
  induction pattern using likeItems.induct (some e) with
  | case1 => exact le_rfl
  | case2 c =>
    rw [likeItems, sample_likeItem]
    by_cases hc : c = '%' <;> simp [hc, sample]
  | case3 c d rest h ih =>
    obtain rfl : c = e := Option.some.inj h
    rw [likeItems, if_pos h, sample, filter_cons_of_pos (by simpa using hpercent), length_cons,
      length_cons]
    have hle : (rest.filter (· != '%')).length ≤ ((d :: rest).filter (· != '%')).length :=
      ((sublist_cons_self d rest).filter _).length_le
    omega
  | case4 c d rest h ih =>
    rw [likeItems, if_neg h, sample_likeItem]
    by_cases hc : c = '%'
    · rw [if_pos hc, filter_cons_of_neg (by simp [hc])]
      exact ih
    · rw [if_neg hc, filter_cons_of_pos (by simpa using hc), length_cons, length_cons]
      exact Nat.succ_le_succ ih

include hone

/-- **A pattern with an escaped character misses a shortest text**: the escape character itself is
asked for as well. -/
theorem unescaped_of_met {pattern met : Str}
    (hmet : met <+ sample (likeItems (some e) pattern))
    (hall : Forall₂ (fun p c => p = '_' ∨ p = c) (pattern.filter (· != '%')) met) :
    Unescaped (some e) pattern := by
  induction pattern using likeItems.induct (some e) generalizing met with
  | case1 => exact fun _ _ => not_mem_nil
  | case2 c => exact fun _ _ => not_mem_nil
  | case3 c d rest h ih =>
    exfalso
    obtain rfl : c = e := Option.some.inj h
    rw [likeItems, if_pos h] at hmet
    rw [filter_cons_of_pos (by simpa using hpercent)] at hall
    have hle := length_sample_le hpercent rest
    cases hall with
    | cons hhead hall =>
      cases hhead.resolve_left hone
      have hlength := hall.length_eq
      by_cases hd : d = '%'
      · rw [filter_cons_of_neg (by simp [hd])] at hlength
        have hshort := (hmet.of_cons_of_ne (by rw [hd]; exact hpercent)).length_le
        rw [length_cons] at hshort
        omega
      · rw [filter_cons_of_pos (by simpa using hd), length_cons] at hlength
        have hshort := hmet.length_le
        rw [sample, length_cons, length_cons] at hshort
        omega
  | case4 c d rest h ih =>
    have hrest : Unescaped (some e) (d :: rest) := by
      rw [likeItems, if_neg h, sample_likeItem] at hmet
      by_cases hc : c = '%'
      · rw [if_pos hc] at hmet
        rw [filter_cons_of_neg (by simp [hc])] at hall
        exact ih hmet hall
      · rw [if_neg hc] at hmet
        rw [filter_cons_of_pos (by simpa using hc)] at hall
        cases hall with
        | cons hhead hall => exact ih hmet.tail hall
    rintro _ ⟨⟩ hmem
    rcases mem_cons.mp hmem with rfl | hmem
    · exact h rfl
    · exact hrest e rfl hmem

end Escapes

/-! ### Where `LIKE` has its meaning -/

/-- **Where `LIKE` and `ILIKE` have their meaning.**  `LIKE` has it on every text exactly if the
pattern has no `%` and no escaped character. On a text without `%`, a pattern without an escaped
character is enough; for `ILIKE` case is to be folded character by character. -/
theorem sqlLikeMatches_means_iff (ext : Externals) {escape : Option Char}
    (hescape : ∀ e ∈ escape, e ≠ '%' ∧ e ≠ '_') (pattern : Str) :
    ((∀ actual, sqlLikeMatches ext actual pattern false = true ↔
        LikeMeans ext escape false actual pattern) ↔ '%' ∉ pattern ∧ Unescaped escape pattern) ∧
      ∀ caseInsensitive actual f, Unescaped escape pattern → ('%' ∉ pattern ∨ '%' ∉ actual) →
        FoldsByChar ext caseInsensitive f pattern → FoldsByChar ext caseInsensitive f actual →
          (sqlLikeMatches ext actual pattern caseInsensitive = true ↔
            LikeMeans ext escape caseInsensitive actual pattern) := by
  have hmeans : ∀ caseInsensitive actual f, Unescaped escape pattern →
      ('%' ∉ pattern ∨ '%' ∉ actual) → FoldsByChar ext caseInsensitive f pattern →
      FoldsByChar ext caseInsensitive f actual →
      (sqlLikeMatches ext actual pattern caseInsensitive = true ↔
        LikeMeans ext escape caseInsensitive actual pattern) := by
    intro caseInsensitive actual f hplain hwild hpattern hactual
    rw [sqlLikeMatches_iff, LikeMeans, likeItems_of_unescaped hplain,
      like_iff_likeFinds hpattern.2 hactual.2 hwild, hpattern.1, hactual.1]
  refine ⟨⟨fun h => ?_, ?_⟩, hmeans⟩
  · have hfinds : ∀ actual, LikeFinds actual pattern ↔
        Like (· = ·) (likeItems escape pattern) actual := fun actual =>
      (sqlLikeMatches_iff ext false actual pattern).symm.trans (h actual)
    have hplain : Unescaped escape pattern := by
      intro e he
      cases Option.mem_def.mp he
      obtain ⟨met, hmet, hall⟩ := ((hfinds _).mpr (like_sample _)).sublist
      exact unescaped_of_met (hescape e rfl).1 (hescape e rfl).2 hmet hall e rfl
    refine ⟨?_, hplain⟩
    intro hpercent
    obtain ⟨actual, hlike, hmissed⟩ := exists_missed hpercent
    rw [← likeItems_of_unescaped hplain] at hlike
    exact hmissed ((hfinds actual).mpr hlike)
  · rintro ⟨hpercent, hplain⟩ actual
    exact hmeans false actual id hplain (.inl hpercent) (foldsByChar_id _) (foldsByChar_id _)

/-- `a_c` has its meaning on every text, with a backslash to escape and in both forms; `a%` has it
on `abc`. -/
theorem sqlLikeMatches_means_plain :
    (∀ actual, sqlLikeMatches ⟨fun _ => none, fun _ => [], id⟩ actual (str "a_c") false = true ↔
        LikeMeans ⟨fun _ => none, fun _ => [], id⟩ (some '\\') false actual (str "a_c")) ∧
      (sqlLikeMatches ⟨fun _ => none, fun _ => [], id⟩ (str "abc") (str "a%") true = true ↔
        LikeMeans ⟨fun _ => none, fun _ => [], id⟩ (some '\\') true (str "abc") (str "a%")) := by
  have hescape : ∀ e ∈ some '\\', e ≠ '%' ∧ e ≠ '_' := by
    rintro _ ⟨⟩
    decide
  have hfolds : ∀ s, FoldsByChar ⟨fun _ => none, fun _ => [], id⟩ true id s := fun s =>
    ⟨(map_id s).symm, fun _ _ => ⟨rfl, .rfl, .rfl⟩⟩
  refine ⟨(sqlLikeMatches_means_iff _ hescape _).1.mpr ⟨by decide, ?_⟩, ?_⟩
  · rintro _ ⟨⟩
    decide
  · refine (sqlLikeMatches_means_iff _ hescape _).2 true _ id ?_ (.inr (by decide)) (hfolds _)
      (hfolds _)
    rintro _ ⟨⟩
    decide

/-- A `%` meets a `%`, and an escaped `_` meets a `_`. -/
theorem percent_notMatched :
    ¬ (sqlLikeMatches ⟨fun _ => none, fun _ => [], id⟩ (str "%a") (str "%") false = true ↔
        LikeMeans ⟨fun _ => none, fun _ => [], id⟩ none false (str "%a") (str "%")) ∧
      ¬ (sqlLikeMatches ⟨fun _ => none, fun _ => [], id⟩ (str "_") (str "\\_") false = true ↔
        LikeMeans ⟨fun _ => none, fun _ => [], id⟩ (some '\\') false (str "_") (str "\\_")) :=
  ⟨fun h => absurd (h.mpr ⟨[], nil_suffix, rfl⟩) (by decide),
    fun h => absurd (h.mpr ⟨'_', [], rfl, by rintro _ ⟨⟩; rfl, rfl⟩) (by decide)⟩

end Lux
