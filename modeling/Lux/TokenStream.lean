import Mathlib.Data.List.Basic

/-!
# Parsers over a token list

A parser reads an item from the front of a token list and returns the tokens it left. Two loops
are built from one: `sepBy1` reads items as long as a separator token follows, `repeatAll` reads
items until no token is left. Both are defined with a fuel of one unit per token; for a parser
that consumes something with every item (`Consumes`) the fuel never runs out, and the loops obey
the equations one would write down without it (`sepTail_step`, `repeatAll_cons`).
-/

namespace TokenStream

open List

variable {ε τ α : Type}

/-- A parser: an item from the front of the tokens, and the tokens left. -/
abbrev Parser (ε τ α : Type) := List τ → Except ε (α × List τ)

/-- The parser takes at least one token for each item. -/
def Consumes (p : Parser ε τ α) : Prop :=
  ∀ ts a rest, p ts = .ok (a, rest) → rest.length < ts.length

/-! ### Items after a separator -/

/-- Items, each behind a separator token, with a bound on their number. -/
def sepTailFuel (isSep : τ → Bool) (p : Parser ε τ α) : Nat → Parser ε τ (List α)
  | 0, ts => .ok ([], ts)
  | _ + 1, [] => .ok ([], [])
  | n + 1, t :: ts =>
    if isSep t then do
      let (a, rest) ← p ts
      let (as, out) ← sepTailFuel isSep p n rest
      .ok (a :: as, out)
    else .ok ([], t :: ts)

/-- Items, each behind a separator token, as long as a separator comes next. -/
def sepTail (isSep : τ → Bool) (p : Parser ε τ α) : Parser ε τ (List α) :=
  fun ts => sepTailFuel isSep p ts.length ts

/-- One item, and further ones as long as a separator follows. -/
def sepBy1 (isSep : τ → Bool) (p : Parser ε τ α) : Parser ε τ (List α) := fun ts => do
  let (a, rest) ← p ts
  let (as, out) ← sepTail isSep p rest
  .ok (a :: as, out)

variable {isSep : τ → Bool} {p : Parser ε τ α}

/-- A recursion over tokens that looks only at shorter rests gives the same result with any two
amounts of fuel that cover the tokens. -/
theorem fuel_congr {β : Type} {f : Nat → List τ → β} (hnil : ∀ n, f n [] = f 0 [])
    (hstep : ∀ m n t ts, (∀ rest : List τ, rest.length ≤ ts.length → f m rest = f n rest) →
      f (m + 1) (t :: ts) = f (n + 1) (t :: ts)) :
    ∀ {m n : Nat} {ts : List τ}, ts.length ≤ m → ts.length ≤ n → f m ts = f n ts := by
  intro m
  induction m with
  | zero =>
    intro n ts hm _
    rw [length_eq_zero_iff.mp (Nat.le_zero.mp hm), hnil n]
  | succ m ih =>
    intro n ts hm hn
    cases ts with
    | nil => rw [hnil, hnil n]
    | cons t ts =>
      rw [length_cons] at hm hn
      obtain ⟨k, rfl⟩ : ∃ k, n = k + 1 := ⟨n - 1, by omega⟩
      exact hstep m k t ts fun rest hrest => ih (by omega) (by omega)

theorem sepTailFuel_congr (hp : Consumes p) {m n : Nat} {ts : List τ} :
    ts.length ≤ m → ts.length ≤ n → sepTailFuel isSep p m ts = sepTailFuel isSep p n ts := by
  refine fuel_congr (fun n => by cases n <;> rfl) fun m n t ts ih => ?_
  simp only [sepTailFuel]
  cases hread : p ts with
  | error e => rfl
  | ok read => simp only [bind, Except.bind, ih read.2 (Nat.le_of_lt (hp ts read.1 read.2 hread))]

variable {ts v : List τ} {t : τ}

/-- Without a separator in front nothing is read. -/
theorem sepTail_stop (ht : isSep t = false) : sepTail isSep p (t :: ts) = .ok ([], t :: ts) := by
  simp [sepTail, sepTailFuel, ht]

/-- Behind a separator one item is read, and then the loop goes on. -/
theorem sepTail_step (hp : Consumes p) (ht : isSep t = true) :
    sepTail isSep p (t :: ts) = sepBy1 isSep p ts := by
  rw [sepTail, length_cons, sepTailFuel, if_pos ht, sepBy1]
  cases hread : p ts with
  | error e => rfl
  | ok read =>
    have hshort := hp ts read.1 read.2 hread
    have hfuel : sepTailFuel isSep p ts.length read.2 = sepTail isSep p read.2 :=
      sepTailFuel_congr hp (by omega) (Nat.le_refl _)
    simp only [bind, Except.bind, hfuel]

/-- What `sepBy1` reads is the first item with the items behind separators after it. -/
theorem sepBy1_eq_ok {as : List α} {out : List τ} :
    sepBy1 isSep p ts = .ok (as, out) ↔
      ∃ a rest tail, p ts = .ok (a, rest) ∧ sepTail isSep p rest = .ok (tail, out) ∧
        as = a :: tail := by
  rw [sepBy1]
  cases hread : p ts with
  | error e => simp [bind, Except.bind]
  | ok read =>
    obtain ⟨a, rest⟩ := read
    cases htail : sepTail isSep p rest with
    | error e => simp [bind, Except.bind, htail]
    | ok tail =>
      obtain ⟨tail, out'⟩ := tail
      simp only [bind, Except.bind, htail, Except.ok.injEq, Prod.mk.injEq]
      constructor
      · rintro ⟨rfl, rfl⟩
        exact ⟨a, rest, tail, ⟨rfl, rfl⟩, by simp [htail], rfl⟩
      · rintro ⟨a', rest', tail', ⟨rfl, rfl⟩, htail', rfl⟩
        rw [htail] at htail'
        cases htail'
        exact ⟨rfl, rfl⟩

/-- The first item has been read. -/
theorem sepBy1_of_item {rest : List τ} {a : α} (hitem : p ts = .ok (a, rest)) :
    sepBy1 isSep p ts = (sepTail isSep p rest).map fun r => (a :: r.1, r.2) := by
  rw [sepBy1, hitem]
  simp only [bind, Except.bind]
  cases sepTail isSep p rest <;> rfl

/-- The first item cannot be read. -/
theorem sepBy1_of_error {e : ε} (hitem : p ts = .error e) : sepBy1 isSep p ts = .error e := by
  rw [sepBy1, hitem]
  rfl

variable (hp : Consumes p)
include hp

/-- What the loop over separators reads: an item behind each of them, until none comes next. -/
theorem sepTail_induction {motive : List τ → List α → List τ → Prop}
    (hstop : ∀ ts, (∀ t ∈ ts.head?, isSep t = false) → motive ts [] ts)
    (hstep : ∀ t ts a rest as out, isSep t = true → p ts = .ok (a, rest) →
      motive rest as out → motive (t :: ts) (a :: as) out) (ts : List τ) :
    ∀ as out, sepTail isSep p ts = .ok (as, out) → motive ts as out := by
  induction hlen : ts.length using Nat.strongRecOn generalizing ts with
  | _ n ih =>
    intro as out hread
    cases ts with
    | nil => cases hread; exact hstop [] (fun t ht => by cases ht)
    | cons t ts =>
      by_cases ht : isSep t = true
      · rw [sepTail_step hp ht] at hread
        obtain ⟨a, rest, tail, hitem, htail, rfl⟩ := sepBy1_eq_ok.mp hread
        have hshort := hp ts a rest hitem
        simp only [length_cons] at hlen
        exact hstep t ts a rest tail out ht hitem
          (ih rest.length (by omega) rest rfl tail out htail)
      · have ht : isSep t = false := by simpa using ht
        rw [sepTail_stop ht] at hread
        cases hread
        exact hstop (t :: ts) (fun u hu => by cases hu; exact ht)

/-- The items behind separators leave no more tokens than there were. -/
theorem sepTail_length_le (ts : List τ) :
    ∀ as out, sepTail isSep p ts = .ok (as, out) → out.length ≤ ts.length := by
  refine sepTail_induction hp (motive := fun ts _ out => out.length ≤ ts.length)
    (fun ts _ => Nat.le_refl _) ?_ ts
  intro t ts a rest as out _ hitem hout
  have hshort := hp ts a rest hitem
  rw [length_cons]
  omega

theorem sepBy1_consumes : Consumes (sepBy1 isSep p) := by
  intro ts as out hread
  obtain ⟨a, rest, tail, hitem, htail, -⟩ := sepBy1_eq_ok.mp hread
  have hshort := hp ts a rest hitem
  have hout := sepTail_length_le hp rest tail out htail
  omega

/-! ### More tokens behind -/

/-! ### Items to the end of the tokens -/

/-- Items until no token is left, with a bound on their number. -/
def repeatAllFuel (p : Parser ε τ α) : Nat → List τ → Except ε (List α)
  | _, [] => .ok []
  | 0, _ :: _ => .ok []
  | n + 1, t :: ts => do
    let (a, rest) ← p (t :: ts)
    let as ← repeatAllFuel p n rest
    .ok (a :: as)

/-- Items until no token is left. -/
def repeatAll (p : Parser ε τ α) (ts : List τ) : Except ε (List α) :=
  repeatAllFuel p ts.length ts

theorem repeatAllFuel_congr {m n : Nat} {ts : List τ} :
    ts.length ≤ m → ts.length ≤ n → repeatAllFuel p m ts = repeatAllFuel p n ts := by
  refine fuel_congr (fun n => by cases n <;> rfl) fun m n t ts ih => ?_
  simp only [repeatAllFuel]
  cases hread : p (t :: ts) with
  | error e => rfl
  | ok read =>
    simp only [bind, Except.bind, ih read.2 (Nat.le_of_lt_succ (hp _ read.1 read.2 hread))]

/-- As long as tokens are left one more item is read. -/
theorem repeatAll_cons (t : τ) (ts : List τ) :
    repeatAll p (t :: ts) = (do
      let (a, rest) ← p (t :: ts)
      let as ← repeatAll p rest
      .ok (a :: as)) := by
  rw [repeatAll, length_cons, repeatAllFuel]
  cases hread : p (t :: ts) with
  | error e => rfl
  | ok read =>
    have hshort := hp _ read.1 read.2 hread
    simp only [length_cons] at hshort
    have hfuel : repeatAllFuel p ts.length read.2 = repeatAll p read.2 :=
      repeatAllFuel_congr hp (by omega) (Nat.le_refl _)
    simp only [bind, Except.bind, hfuel]

/-- Once an item has been read, the rest is read on its own. -/
theorem repeatAll_of_ok {a : α} {rest : List τ} (hts : ts ≠ [])
    (hitem : p ts = .ok (a, rest)) :
    repeatAll p ts = (do let as ← repeatAll p rest; .ok (a :: as)) := by
  obtain ⟨t, ts, rfl⟩ := exists_cons_of_ne_nil hts
  rw [repeatAll_cons hp, hitem]
  rfl

/-- An item that cannot be read ends the loop with its error. -/
theorem repeatAll_of_error {e : ε} (hts : ts ≠ []) (hitem : p ts = .error e) :
    repeatAll p ts = .error e := by
  obtain ⟨t, ts, rfl⟩ := exists_cons_of_ne_nil hts
  rw [repeatAll_cons hp, hitem]
  rfl

/-- Tokens that are all read begin with an item. -/
theorem repeatAll_ok {as : List α} (hts : ts ≠ []) (hread : repeatAll p ts = .ok as) :
    ∃ a rest tail, p ts = .ok (a, rest) ∧ repeatAll p rest = .ok tail ∧ as = a :: tail := by
  cases hitem : p ts with
  | error e => rw [repeatAll_of_error hp hts hitem] at hread; cases hread
  | ok read =>
    rw [repeatAll_of_ok hp hts hitem] at hread
    cases hrest : repeatAll p read.2 with
    | error e => rw [hrest] at hread; cases hread
    | ok tail =>
      rw [hrest] at hread
      cases hread
      exact ⟨read.1, read.2, tail, rfl, hrest, rfl⟩

end TokenStream
