import Mathlib.Data.List.Basic
import Mathlib.Data.List.Nodup
import Mathlib.Tactic.Linarith

/-!
# Ranges of positions

Positions in a sequence may be counted from its end by negative numbers, and a range is given by
its first and its last position. `between` are the elements whose positions lie in a range,
wherever its bounds are; `between_eq` gives them as a piece of the sequence. `slice` is the
piece between two offsets, and nothing at all when the offsets are no piece, where a machine
would stop.
-/

namespace IndexRange

open List

variable {α : Type}

/-- A position that may be counted from the end. -/
def resolve (len : Nat) (i : Int) : Int := if i < 0 then len + i else i

/-- The position lies in the range. -/
def Selects (len : Nat) (start stop : Int) (i : Nat) : Prop :=
  resolve len start ≤ i ∧ i ≤ resolve len stop

instance (len : Nat) (start stop : Int) (i : Nat) : Decidable (Selects len start stop i) :=
  inferInstanceAs (Decidable (_ ∧ _))

/-- The elements whose positions lie in the range. -/
def between (l : List α) (start stop : Int) : List α :=
  (l.zipIdx.filter fun p => Selects l.length start stop p.2).map Prod.fst

/-- The piece between two offsets. -/
def slice (l : List α) (first last : Nat) : Option (List α) :=
  if first ≤ last ∧ last ≤ l.length then some ((l.take last).drop first) else none

variable (l : List α)

theorem filter_zipIdx (first last : Nat) : ∀ k : Nat,
    ((l.zipIdx k).filter fun p => first ≤ p.2 ∧ p.2 < last).map Prod.fst =
      (l.take (last - k)).drop (first - k) := by
  induction l with
  | nil => intro k; simp
  | cons x l ih =>
    intro k
    rw [zipIdx_cons, filter_cons]
    by_cases hfirst : first ≤ k
    · have hzero : first - k = 0 := by omega
      have hzero' : first - (k + 1) = 0 := by omega
      by_cases hlast : k < last
      · have hsucc : last - k = (last - (k + 1)) + 1 := by omega
        rw [if_pos (by simp [hfirst, hlast]), map_cons, ih, hzero, hzero', hsucc,
          take_succ_cons, drop_zero, drop_zero]
      · have hnone : last - k = 0 := by omega
        have hnone' : last - (k + 1) = 0 := by omega
        rw [if_neg (by simp [hlast]), ih, hnone, hnone']
        simp
    have hsucc : first - k = (first - (k + 1)) + 1 := by omega
    rw [if_neg (by simp [hfirst]), ih, hsucc]
    by_cases hlast : k < last
    · have hsucc' : last - k = (last - (k + 1)) + 1 := by omega
      rw [hsucc', take_succ_cons, drop_succ_cons]
    · have hnone : last - k = 0 := by omega
      have hnone' : last - (k + 1) = 0 := by omega
      rw [hnone, hnone']
      simp

/-- **The elements in a range are a piece of the sequence.** -/
theorem between_eq (start stop : Int) : between l start stop =
      (l.take (resolve l.length stop + 1).toNat).drop (resolve l.length start).toNat := by
  have hpiece := filter_zipIdx l (resolve l.length start).toNat (resolve l.length stop + 1).toNat 0
  rw [Nat.sub_zero, Nat.sub_zero] at hpiece
  rw [← hpiece, between]
  congr 1
  apply filter_congr
  intro p _
  rw [decide_eq_decide]
  unfold Selects
  omega

/-- The offsets a machine computes for a range, cut to the sequence or not, give its elements. -/
theorem piece_eq_between {l : List α} {start stop : Int} {first last : Nat}
    (hfirst : min first l.length = min (resolve l.length start).toNat l.length)
    (hlast : min last l.length = min (resolve l.length stop + 1).toNat l.length) :
    (l.take last).drop first = between l start stop := by
  have hdrop : ∀ (k m : Nat), min k l.length = min m l.length →
      ∀ n, (l.take n).drop k = (l.take n).drop m := by
    intro k m hkm n
    by_cases hk : k < l.length
    · have heq : k = m := by omega
      rw [heq]
    · rw [drop_eq_nil_iff.mpr (by rw [length_take]; omega),
        drop_eq_nil_iff.mpr (by rw [length_take]; omega)]
  have htake : l.take last = l.take (resolve l.length stop + 1).toNat := by
    rw [take_eq_take_min, hlast, ← take_eq_take_min]
  rw [between_eq, htake]
  exact hdrop _ _ hfirst _

/-- A range whose offsets are in the wrong order is empty. -/
theorem between_eq_nil {l : List α} {start stop : Int} {first last : Nat}
    (hfirst : min first l.length = min (resolve l.length start).toNat l.length)
    (hlast : min last l.length = min (resolve l.length stop + 1).toNat l.length)
    (h : last ≤ first) : between l start stop = [] := by
  rw [← piece_eq_between hfirst hlast, drop_eq_nil_iff, length_take]
  omega

/-- A piece of a numbered sequence is the numbered piece. -/
theorem zipIdx_piece : ∀ (k first last : Nat),
    ((l.zipIdx k).take last).drop first = ((l.take last).drop first).zipIdx (k + first) := by
  induction l with
  | nil => intro k first last; simp
  | cons x l ih =>
    intro k first last
    cases last with
    | zero => simp
    | succ last =>
      rw [zipIdx_cons, take_succ_cons, take_succ_cons]
      cases first with
      | zero =>
        have hrest := ih (k + 1) 0 last
        simp only [drop_zero] at hrest
        simp [hrest]
      | succ first =>
        rw [drop_succ_cons, ih]
        congr 1
        omega

/-- The whole sequence is the range from its first to its last position. -/
theorem between_all : between l 0 (-1) = l := by
  have hlast : (resolve l.length (-1) + 1).toNat = l.length := by simp [resolve]
  rw [between_eq, hlast, take_length]
  rfl

/-- The position of the only element with a value of a key. -/
theorem findIdx?_of_getElem? {β : Type} [DecidableEq β] (key : α → β) {l : List α}
    (hdistinct : (l.map key).Nodup) {i : Nat} {x : α} (hx : l[i]? = some x) :
    l.findIdx? (fun y => key y = key x) = some i := by
  obtain ⟨hi, hget⟩ := List.getElem?_eq_some_iff.mp hx
  rw [findIdx?_eq_some_iff_getElem]
  refine ⟨hi, by simp [hget], fun j hj => ?_⟩
  have hlen : (l.map key).length = l.length := length_map key
  intro heq
  have hsame : (l.map key).get ⟨j, by omega⟩ = (l.map key).get ⟨i, by omega⟩ := by
    simpa [hget] using heq
  have hij := nodup_iff_injective_get.mp hdistinct hsame
  exact absurd (Fin.mk.inj_iff.mp hij) (by omega)

end IndexRange
