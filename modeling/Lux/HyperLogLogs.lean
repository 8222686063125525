import Lux.DumpCodec
import Lux.Runs

/-!
# HyperLogLog registers

A sketch has a fixed number of registers.  An element is hashed; some bits of the hash say which
register it goes to and the others how high it lifts it.  Adding and merging only take maxima, so
the registers are a function of the set of elements, however they came in: `registersOf` is that
function.  Beside the registers stands the count that was last computed from them.

`registers_track_added` follows whole runs.  The store with its registers and counts is at every
moment the image of an abstract store that has, under each key, the set of the elements added.
-/

/-! ### Maxima over sets -/

namespace MaxSketch

variable {α : Type} (place rank : α → Nat)

/-- The highest rank of the elements at a place. -/
def level (s : Finset α) (i : Nat) : Nat := (s.filter fun a => place a = i).sup rank

@[simp] theorem level_empty (i : Nat) : level place rank ∅ i = 0 := rfl

theorem level_insert [DecidableEq α] (a : α) (s : Finset α) (i : Nat) :
    level place rank (insert a s) i =
      if place a = i then max (rank a) (level place rank s i) else level place rank s i := by
  unfold level
  rw [Finset.filter_insert]
  split
  · exact Finset.sup_insert
  · rfl

theorem level_union [DecidableEq α] (s t : Finset α) (i : Nat) :
    level place rank (s ∪ t) i = max (level place rank s i) (level place rank t i) := by
  unfold level
  rw [Finset.filter_union]
  exact Finset.sup_union

theorem level_le {bound : Nat} (h : ∀ a, rank a ≤ bound) (s : Finset α) (i : Nat) :
    level place rank s i ≤ bound :=
  Finset.sup_le fun a _ => h a

end MaxSketch

namespace Lux.HyperLogLog

open ByteCodec KeyedList MaxSketch Dialect List

/-- The hash of the elements and the estimate from the registers. -/
structure Env where
  murmurHash64a : Bytes → UInt64
  hllCount : Bytes → UInt64

/-! ## Registers -/

/-- `HLL_P`. -/
def hllP : UInt64 := 14

/-- `u64::trailing_zeros`. -/
def trailingZeros (x : UInt64) : Nat := ((range 64).find? x.toNat.testBit).getD 64

section Registers

variable (env : Env)

/-- The register of an element. -/
def registerIndex (element : Bytes) : Nat :=
  (env.murmurHash64a element &&& ((1 <<< hllP) - 1)).toNat

/-- What an element lifts its register to. -/
def registerCount (element : Bytes) : UInt8 :=
  let bits := env.murmurHash64a element >>> hllP
  if bits = 0 then UInt8.ofNat (64 - hllP.toNat) + 1 else UInt8.ofNat (trailingZeros bits + 1)

/-- `hll_add`: the registers, and whether one of them was lifted. -/
def hllAdd (registers : Bytes) (element : Bytes) : Bytes × Bool :=
  let index := registerIndex env element
  let count := registerCount env element
  if registers.getD index 0 < count then (registers.set index count, true) else (registers, false)

/-- `hll_merge`. -/
def hllMerge (dest src : Bytes) : Bytes :=
  (range hllRegisters).foldl
    (fun dest i => if dest.getD i 0 < src.getD i 0 then dest.set i (src.getD i 0) else dest) dest

/-- The loop over the arguments of `PFADD`. -/
def addAll (registers : Bytes) (elements : List Bytes) : Bytes × Bool :=
  elements.foldl
    (fun state element =>
      let added := hllAdd env state.1 element
      (added.1, state.2 || added.2))
    (registers, false)

/-- `vec![0u8; HLL_REGISTERS]`. -/
def emptyRegisters : Bytes := replicate hllRegisters 0

end Registers

/-! ## The store -/

/-- A sketch with its cached count, or a value of another type. -/
inductive Held (ω : Type) where
  | hyperLogLog (registers : Bytes) (cached : UInt64)
  | other (value : ω)
  deriving DecidableEq

structure Slot (ν : Type) where
  value : ν
  expiresAt : Option Instant
  deriving DecidableEq

/-- `is_expired_at`. -/
def Slot.isExpiredAt {ν : Type} (slot : Slot ν) (now : Instant) : Bool :=
  slot.expiresAt.any (· < now)

def wrongType : String := "WRONGTYPE Operation against a key holding the wrong kind of value"

variable {κ ω : Type} [DecidableEq κ]

abbrev Data (κ ω : Type) := List (κ × Slot (Held ω))

section Commands

variable (env : Env)

/-- A sketch of the elements alone. -/
def freshSlot (elements : List Bytes) : Slot (Held ω) :=
  let registers := (addAll env emptyRegisters elements).1
  ⟨.hyperLogLog registers (env.hllCount registers), none⟩

def pfadd (data : Data κ ω) (key : κ) (elements : List Bytes) (now : Instant) :
    Data κ ω × Except String Int :=
  let fresh := (put data key (freshSlot env elements),
    .ok (if (addAll env emptyRegisters elements).2 then 1 else 0))
  match data.lookup key with
  | none => fresh
  | some slot =>
    if slot.isExpiredAt now then fresh
    else match slot.value with
      | .hyperLogLog registers cached =>
        let (registers, changed) := addAll env registers elements
        let cached := if changed then env.hllCount registers else cached
        (put data key ⟨.hyperLogLog registers cached, slot.expiresAt⟩,
          .ok (if changed then 1 else 0))
      | .other _ => (data, .error wrongType)

/-- The registers of the keys merged one after the other; a key that is missing or expired adds
nothing. -/
def mergeKeys (data : Data κ ω) (now : Instant) : Bytes → List κ → Except String Bytes
  | merged, [] => .ok merged
  | merged, key :: keys =>
    match (data.lookup key).filter fun slot => !slot.isExpiredAt now with
    | none => mergeKeys data now merged keys
    | some slot =>
      match slot.value with
      | .hyperLogLog registers _ => mergeKeys data now (hllMerge merged registers) keys
      | .other _ => .error wrongType

/-- `pfcount`: the cached count of one key, or the count of several keys together. -/
def pfcount (data : Data κ ω) (keys : List κ) (now : Instant) : Except String Int64 :=
  match keys with
  | [key] =>
    match (data.lookup key).filter fun slot => !slot.isExpiredAt now with
    | none => .ok 0
    | some slot =>
      match slot.value with
      | .hyperLogLog _ cached => .ok cached.toInt64
      | .other _ => .error wrongType
  | keys => (mergeKeys data now emptyRegisters keys).map fun merged => (env.hllCount merged).toInt64

/-- `pfmerge`: the destination is the first of the keys that are read. -/
def pfmerge (data : Data κ ω) (dest : κ) (sources : List κ) (now : Instant) :
    Data κ ω × Except String Unit :=
  match mergeKeys data now emptyRegisters (dest :: sources) with
  | .error message => (data, .error message)
  | .ok merged => (put data dest ⟨.hyperLogLog merged (env.hllCount merged), none⟩, .ok ⟨⟩)

/-- A key leaves memory and is loaded again: the registers go through the reader, and the count is
computed from them. -/
def reload (data : Data κ ω) (key : κ) : Data κ ω :=
  match data.lookup key with
  | some ⟨.hyperLogLog registers _, expiresAt⟩ =>
    match readRegisters registers.length registers with
    | .ok (registers, _) =>
      put data key ⟨.hyperLogLog registers (env.hllCount registers), expiresAt⟩
    | .error _ => erase data key
  | _ => data

end Commands

/-- What can happen to the keys. -/
inductive Op (κ ω : Type) where
  | pfadd (key : κ) (elements : List Bytes) (now : Instant)
  | pfmerge (dest : κ) (sources : List κ) (now : Instant)
  | reload (key : κ)
  | write (key : κ) (value : ω) (expiresAt : Option Instant)
  | setDeadline (key : κ) (expiresAt : Option Instant)
  | remove (key : κ)

def step (env : Env) (data : Data κ ω) : Op κ ω → Data κ ω
  | .pfadd key elements now => (pfadd env data key elements now).1
  | .pfmerge dest sources now => (pfmerge env data dest sources now).1
  | .reload key => reload env data key
  | .write key value expiresAt => put data key ⟨.other value, expiresAt⟩
  | .setDeadline key expiresAt =>
    (data.lookup key).elim data fun slot => put data key { slot with expiresAt }
  | .remove key => erase data key

/-! ## The elements added -/

/-- The set of the elements added, or a value of another type. -/
inductive Meant (ω : Type) where
  | elements (added : Finset Bytes)
  | other (value : ω)

/-- What the keys mean. -/
abbrev Meaning (κ ω : Type) := κ → Option (Slot (Meant ω))

namespace Meaning

/-- The value under a key, unless its deadline has passed. -/
def live (m : Meaning κ ω) (now : Instant) (key : κ) : Option (Slot (Meant ω)) :=
  (m key).filter fun slot => !slot.isExpiredAt now

/-- The elements under a key, if there are any. -/
def elementsAt (m : Meaning κ ω) (now : Instant) (key : κ) : Finset Bytes :=
  match m.live now key with
  | some ⟨.elements added, _⟩ => added
  | _ => ∅

/-- The key has a value of another type. -/
def IsOther (m : Meaning κ ω) (now : Instant) (key : κ) : Prop :=
  ∃ value expiresAt, m.live now key = some ⟨.other value, expiresAt⟩

open Classical in
/-- `PFADD` adds to the set under its key. -/
noncomputable def pfadd (m : Meaning κ ω) (key : κ) (elements : List Bytes) (now : Instant) :
    Meaning κ ω :=
  if m.IsOther now key then m
  else Function.update m key (some ⟨.elements (m.elementsAt now key ∪ elements.toFinset),
    (m.live now key).bind Slot.expiresAt⟩)

open Classical in
/-- `PFMERGE` takes the union. -/
noncomputable def pfmerge (m : Meaning κ ω) (dest : κ) (sources : List κ) (now : Instant) :
    Meaning κ ω :=
  if ∃ key ∈ dest :: sources, m.IsOther now key then m
  else Function.update m dest
    (some ⟨.elements ((dest :: sources).toFinset.biUnion (m.elementsAt now)), none⟩)

noncomputable def step (m : Meaning κ ω) : Op κ ω → Meaning κ ω
  | .pfadd key elements now => m.pfadd key elements now
  | .pfmerge dest sources now => m.pfmerge dest sources now
  | .reload _ => m
  | .write key value expiresAt => Function.update m key (some ⟨.other value, expiresAt⟩)
  | .setDeadline key expiresAt =>
    Function.update m key ((m key).map fun slot => { slot with expiresAt })
  | .remove key => Function.update m key none

end Meaning

/-- The registers of a set of elements. -/
def registersOf (env : Env) (s : Finset Bytes) : Bytes :=
  (range hllRegisters).map fun i =>
    UInt8.ofNat (level (registerIndex env) (fun e => (registerCount env e).toNat) s i)

open Classical in
/-- `PFCOUNT` counts the elements under its keys together, and a single key that is missing
as zero. -/
noncomputable def Meaning.pfcount (env : Env) (m : Meaning κ ω) (keys : List κ) (now : Instant) :
    Except String Int64 :=
  if ∃ key ∈ keys, m.IsOther now key then .error wrongType
  else if ∃ key, keys = [key] ∧ m.live now key = none then .ok 0
  else .ok (env.hllCount (registersOf env (keys.toFinset.biUnion (m.elementsAt now)))).toInt64

/-- The registers and the count that stand for a set of elements. -/
def realise (env : Env) (slot : Slot (Meant ω)) : Slot (Held ω) where
  value := match slot.value with
    | .elements added => .hyperLogLog (registersOf env added) (env.hllCount (registersOf env added))
    | .other value => .other value
  expiresAt := slot.expiresAt

/-- The store is the image of what it means. -/
def Tracks (env : Env) (data : Data κ ω) (m : Meaning κ ω) : Prop :=
  ∀ key, data.lookup key = (m key).map (realise env)

/-! ## Registers of sets -/

section RegistersOf

variable (env : Env)

theorem registerIndex_lt (element : Bytes) : registerIndex env element < hllRegisters := by
  have hmask : ((1 <<< hllP) - 1 : UInt64).toNat = 2 ^ 14 - 1 := by decide
  rw [registerIndex, UInt64.toNat_and, hmask, Nat.and_two_pow_sub_one_eq_mod]
  exact Nat.mod_lt _ (by decide)

/-- The lowest bit that is set, in a number of fifty bits. -/
theorem trailingZeros_lt {bits : UInt64} (hne : bits ≠ 0) (hlt : bits.toNat < 2 ^ 50) :
    trailingZeros bits < 50 := by
  have hpos : bits.toNat ≠ 0 := fun h => hne (UInt64.toNat_inj.mp h)
  obtain ⟨k, hk⟩ := Nat.exists_testBit_of_ne_zero hpos
  have hk50 : k < 50 := by
    by_contra hge
    have hsmall : bits.toNat < 2 ^ k := hlt.trans_le (Nat.pow_le_pow_right (by decide) (by omega))
    rw [Nat.testBit_lt_two_pow hsmall] at hk
    cases hk
  unfold trailingZeros
  cases hfind : (range 64).find? bits.toNat.testBit with
  | none =>
    have hnone := find?_eq_none.mp hfind k (mem_range.mpr (by omega))
    exact absurd hk hnone
  | some i =>
    have hbit := find?_some hfind
    by_contra hge
    have hi : 50 ≤ i := Nat.le_of_not_lt hge
    have hsmall : bits.toNat < 2 ^ i := hlt.trans_le (Nat.pow_le_pow_right (by decide) hi)
    rw [Nat.testBit_lt_two_pow hsmall] at hbit
    cases hbit

theorem registerCount_le (element : Bytes) : (registerCount env element).toNat ≤ 51 := by
  have hshift : (env.murmurHash64a element >>> hllP).toNat < 2 ^ 50 := by
    have hlt := (env.murmurHash64a element).toNat_lt
    have hp : hllP.toNat % 64 = 14 := by decide
    rw [UInt64.toNat_shiftRight, hp, Nat.shiftRight_eq_div_pow]
    omega
  unfold registerCount
  simp only
  split
  · decide
  · next hne =>
    have hlt := trailingZeros_lt hne hshift
    rw [UInt8.toNat_ofNat']
    omega

/-- The level of a register, as a number. -/
abbrev levelOf (s : Finset Bytes) (i : Nat) : Nat :=
  level (registerIndex env) (fun e => (registerCount env e).toNat) s i

theorem levelOf_le (s : Finset Bytes) (i : Nat) : levelOf env s i ≤ 51 :=
  level_le _ _ (registerCount_le env) s i

@[simp] theorem length_registersOf (s : Finset Bytes) :
    (registersOf env s).length = hllRegisters := by
  rw [registersOf, length_map, length_range]

theorem toNat_registersOf (s : Finset Bytes) {i : Nat} (hi : i < hllRegisters) :
    ((registersOf env s).getD i 0).toNat = levelOf env s i := by
  have hle := levelOf_le env s i
  have hget : (registersOf env s).getD i 0 = UInt8.ofNat (levelOf env s i) := by
    rw [registersOf, getD_eq_getElem?_getD, getElem?_map, getElem?_range hi]
    rfl
  rw [hget, UInt8.toNat_ofNat']
  omega

/-- Registers are those of a set when each has the level of the set. -/
theorem eq_registersOf {registers : Bytes} {s : Finset Bytes}
    (hlength : registers.length = hllRegisters)
    (h : ∀ i < hllRegisters, (registers.getD i 0).toNat = levelOf env s i) :
    registers = registersOf env s := by
  refine ext_getElem (by simp [hlength]) fun i hi hi' => ?_
  have hlt : i < hllRegisters := hlength ▸ hi
  have heq := (h i hlt).trans (toNat_registersOf env s hlt).symm
  rw [getD_eq_getElem _ _ hi, getD_eq_getElem _ _ hi'] at heq
  exact UInt8.toNat_inj.mp heq

/-- **The registers of a set are what the reader accepts.** -/
theorem validRegisters_registersOf (s : Finset Bytes) : ValidRegisters (registersOf env s) := by
  refine ⟨length_registersOf env s, fun value hvalue => ?_⟩
  obtain ⟨i, hi, rfl⟩ := getElem_of_mem hvalue
  have hlevel := toNat_registersOf env s (length_registersOf env s ▸ hi)
  rw [getD_eq_getElem _ _ hi] at hlevel
  rw [UInt8.le_iff_toNat_le, hlevel]
  exact levelOf_le env s i

theorem emptyRegisters_eq : emptyRegisters = registersOf env ∅ := by
  refine eq_registersOf env (by simp [emptyRegisters]) fun i hi => ?_
  simp [emptyRegisters, getD_eq_getElem?_getD, hi]

theorem getD_set {registers : Bytes} {j : Nat} (hj : j < registers.length) (value : UInt8)
    (i : Nat) : (registers.set j value).getD i 0 = if j = i then value else registers.getD i 0 := by
  simp only [getD_eq_getElem?_getD, getElem?_set]
  split
  · next heq =>
    subst heq
    simp
  · rfl

/-- **Adding an element.**  A register that is not lifted is as high already. -/
theorem hllAdd_registersOf (s : Finset Bytes) (element : Bytes) :
    (hllAdd env (registersOf env s) element).1 = registersOf env (insert element s) ∧
      ((hllAdd env (registersOf env s) element).2 = false →
        registersOf env (insert element s) = registersOf env s) := by
  have hlt := registerIndex_lt env element
  have hold := toNat_registersOf env s hlt
  unfold hllAdd
  simp only
  split
  · next hlift =>
    refine ⟨eq_registersOf env (by simp) fun i hi => ?_, fun h => by cases h⟩
    rw [UInt8.lt_iff_toNat_lt, hold] at hlift
    rw [getD_set (by simpa using hlt), levelOf, level_insert]
    split
    · next heq => rw [← heq, max_eq_left hlift.le]
    · exact toNat_registersOf env s hi
  · next hlift =>
    rw [UInt8.lt_iff_toNat_lt, hold, Nat.not_lt] at hlift
    have hsame : registersOf env s = registersOf env (insert element s) := by
      refine eq_registersOf env (by simp) fun i hi => ?_
      rw [toNat_registersOf env s hi, levelOf, levelOf, level_insert]
      split
      · next heq => rw [← heq, max_eq_right hlift]
      · rfl
    dsimp only
    exact ⟨hsame, fun _ => hsame.symm⟩

/-- The loop of `PFADD`: if nothing was lifted, the registers are as before. -/
theorem addAll_registersOf (s : Finset Bytes) (elements : List Bytes) :
    (addAll env (registersOf env s) elements).1 = registersOf env (s ∪ elements.toFinset) ∧
      ((addAll env (registersOf env s) elements).2 = false →
        registersOf env (s ∪ elements.toFinset) = registersOf env s) := by
  unfold addAll
  -- Generalised over what was lifted so far; only that it stays is needed of it.
  suffices hloop : ∀ (s : Finset Bytes) (changed : Bool),
      let state := elements.foldl
        (fun state element =>
          let added := hllAdd env state.1 element
          (added.1, state.2 || added.2)) (registersOf env s, changed)
      state.1 = registersOf env (s ∪ elements.toFinset) ∧
        (state.2 = false → changed = false ∧
          registersOf env (s ∪ elements.toFinset) = registersOf env s) from
    ⟨(hloop s false).1, fun h => ((hloop s false).2 h).2⟩
  clear s
  induction elements with
  | nil => simp
  | cons element elements ih =>
    intro s changed
    obtain ⟨hadd, hsame⟩ := hllAdd_registersOf env s element
    have hset : insert element s ∪ elements.toFinset = s ∪ (element :: elements).toFinset := by
      rw [toFinset_cons, Finset.union_insert, Finset.insert_union]
    obtain ⟨hregs, hrest⟩ := ih (insert element s)
      (changed || (hllAdd env (registersOf env s) element).2)
    rw [hset] at hregs hrest
    simp only [foldl_cons, hadd]
    refine ⟨hregs, fun hfalse => ?_⟩
    obtain ⟨hchanged, heq⟩ := hrest hfalse
    rw [Bool.or_eq_false_iff] at hchanged
    exact ⟨hchanged.1, heq.trans (hsame hchanged.2)⟩

/-- A pass over the first registers takes maxima there. -/
theorem foldl_lift (src dest : Bytes) {n : Nat} (hn : n ≤ dest.length) :
    let lifted := (range n).foldl
      (fun dest i => if dest.getD i 0 < src.getD i 0 then dest.set i (src.getD i 0) else dest) dest
    lifted.length = dest.length ∧ ∀ i, (lifted.getD i 0).toNat =
      if i < n then max (dest.getD i 0).toNat (src.getD i 0).toNat else (dest.getD i 0).toNat := by
  induction n with
  | zero => simp
  | succ n ih =>
    obtain ⟨hlength, hget⟩ := ih (Nat.le_of_succ_le hn)
    simp only [range_succ, foldl_append, foldl_cons, foldl_nil]
    have hn' := hget n
    rw [if_neg (Nat.lt_irrefl n)] at hn'
    split
    · next hlift =>
      rw [UInt8.lt_iff_toNat_lt, hn'] at hlift
      refine ⟨by rw [length_set, hlength], fun i => ?_⟩
      rw [getD_set (hlength ▸ hn)]
      split
      · next heq =>
        subst heq
        rw [if_pos (Nat.lt_succ_self n), max_eq_right hlift.le]
      · next hne =>
        rw [hget i]
        exact if_congr (by omega) rfl rfl
    · next hlift =>
      rw [UInt8.lt_iff_toNat_lt, hn', Nat.not_lt] at hlift
      refine ⟨hlength, fun i => ?_⟩
      rw [hget i]
      by_cases heq : i = n
      · subst heq
        rw [if_neg (Nat.lt_irrefl i), if_pos (Nat.lt_succ_self i), max_eq_left hlift]
      · exact if_congr (by omega) rfl rfl

/-- **Merging gives the registers of the union.** -/
theorem hllMerge_registersOf (s t : Finset Bytes) :
    hllMerge (registersOf env s) (registersOf env t) = registersOf env (s ∪ t) := by
  obtain ⟨hlength, hget⟩ := foldl_lift (registersOf env t) (registersOf env s)
    (length_registersOf env s).ge
  refine eq_registersOf env (hlength.trans (length_registersOf env s)) fun i hi => ?_
  rw [hllMerge, hget i, if_pos hi, toNat_registersOf env s hi, toNat_registersOf env t hi]
  exact (level_union _ _ s t i).symm

end RegistersOf

/-! ## The commands on what is meant -/

section Steps

variable (env : Env) {data : Data κ ω} {m : Meaning κ ω}

@[simp] theorem realise_isExpiredAt (slot : Slot (Meant ω)) (now : Instant) :
    (realise env slot).isExpiredAt now = slot.isExpiredAt now := rfl

theorem Tracks.put (h : Tracks env data m) (key : κ) (slot : Slot (Meant ω)) :
    Tracks env (put data key (realise env slot)) (Function.update m key (some slot)) := by
  intro other
  by_cases hkey : other = key
  · subst hkey
    rw [lookup_put_self, Function.update_self]
    rfl
  · rw [lookup_put_of_ne _ _ hkey, Function.update_of_ne hkey]
    exact h other

/-- A key and what it means are live together. -/
theorem Tracks.live (h : Tracks env data m) (now : Instant) (key : κ) :
    ((data.lookup key).filter fun slot => !slot.isExpiredAt now) =
      (m.live now key).map (realise env) := by
  rw [h key, Meaning.live]
  cases m key with
  | none => rfl
  | some slot =>
    cases hexp : slot.isExpiredAt now <;> simp [hexp, Option.filter]

theorem freshSlot_eq (elements : List Bytes) :
    (freshSlot env elements : Slot (Held ω)) =
      realise env ⟨.elements elements.toFinset, none⟩ := by
  unfold freshSlot
  have hadd := (addAll_registersOf env ∅ elements).1
  rw [← emptyRegisters_eq, Finset.empty_union] at hadd
  rw [hadd]
  rfl

/-- `PFADD`, in one equation over what is live under the key. -/
theorem pfadd_eq (data : Data κ ω) (key : κ) (elements : List Bytes) (now : Instant) :
    (pfadd env data key elements now).1 =
      match (data.lookup key).filter fun slot => !slot.isExpiredAt now with
      | none => put data key (freshSlot env elements)
      | some ⟨.hyperLogLog registers cached, expiresAt⟩ =>
        let added := addAll env registers elements
        put data key
          ⟨.hyperLogLog added.1 (if added.2 then env.hllCount added.1 else cached), expiresAt⟩
      | some ⟨.other _, _⟩ => data := by
  unfold pfadd
  cases data.lookup key with
  | none => rfl
  | some slot =>
    obtain ⟨value, expiresAt⟩ := slot
    cases hexp : Slot.isExpiredAt ⟨value, expiresAt⟩ now with
    | true => simp [hexp, Option.filter]
    | false => cases value <;> simp [hexp, Option.filter]

theorem tracks_pfadd (h : Tracks env data m) (key : κ) (elements : List Bytes) (now : Instant) :
    Tracks env (pfadd env data key elements now).1 (m.pfadd key elements now) := by
  rw [pfadd_eq, h.live, Meaning.pfadd]
  cases hlive : m.live now key with
  | none =>
    have hnot : ¬ m.IsOther now key := by simp [Meaning.IsOther, hlive]
    have hnone : m.elementsAt now key = ∅ := by simp [Meaning.elementsAt, hlive]
    rw [if_neg hnot, hnone, Finset.empty_union]
    simp only [Option.map_none, freshSlot_eq]
    exact h.put env key _
  | some slot =>
    obtain ⟨value, expiresAt⟩ := slot
    cases value with
    | other value =>
      rw [if_pos ⟨value, expiresAt, hlive⟩]
      exact h
    | elements added =>
      have hnot : ¬ m.IsOther now key := by simp [Meaning.IsOther, hlive]
      have hsome : m.elementsAt now key = added := by simp [Meaning.elementsAt, hlive]
      rw [if_neg hnot, hsome]
      obtain ⟨hregs, hsame⟩ := addAll_registersOf env added elements
      -- The count is computed again only if a register was lifted.
      have hcached : (if (addAll env (registersOf env added) elements).2 then
          env.hllCount (registersOf env (added ∪ elements.toFinset))
          else env.hllCount (registersOf env added)) =
            env.hllCount (registersOf env (added ∪ elements.toFinset)) := by
        split
        · rfl
        · next hchanged => rw [hsame (eq_false_of_ne_true hchanged)]
      simp only [Option.map_some, realise, hregs, hcached]
      exact h.put env key ⟨.elements (added ∪ elements.toFinset), expiresAt⟩

open Classical in
/-- The loop of `PFMERGE` and `PFCOUNT`, from registers of a set on. -/
theorem mergeKeys_eq (h : Tracks env data m) (now : Instant) (keys : List κ) (s : Finset Bytes) :
    mergeKeys data now (registersOf env s) keys =
      if ∃ key ∈ keys, m.IsOther now key then .error wrongType
      else .ok (registersOf env (s ∪ keys.toFinset.biUnion (m.elementsAt now))) := by
  induction keys generalizing s with
  | nil => simp [mergeKeys]
  | cons key keys ih =>
    rw [mergeKeys, h.live, toFinset_cons, Finset.biUnion_insert, ← Finset.union_assoc]
    cases hlive : m.live now key with
    | none =>
      have hnot : ¬ m.IsOther now key := by simp [Meaning.IsOther, hlive]
      have hnone : m.elementsAt now key = ∅ := by simp [Meaning.elementsAt, hlive]
      simp only [Option.map_none, ih, exists_mem_cons_iff, hnot, false_or, hnone,
        Finset.union_empty]
    | some slot =>
      obtain ⟨value, expiresAt⟩ := slot
      cases value with
      | other value =>
        have hother : m.IsOther now key := ⟨value, expiresAt, hlive⟩
        rw [if_pos ⟨key, mem_cons_self, hother⟩]
        rfl
      | elements added =>
        have hnot : ¬ m.IsOther now key := by simp [Meaning.IsOther, hlive]
        have hsome : m.elementsAt now key = added := by simp [Meaning.elementsAt, hlive]
        simp only [Option.map_some, realise, hllMerge_registersOf, ih, exists_mem_cons_iff, hnot,
          false_or, hsome]

theorem tracks_pfmerge (h : Tracks env data m) (dest : κ) (sources : List κ) (now : Instant) :
    Tracks env (pfmerge env data dest sources now).1 (m.pfmerge dest sources now) := by
  rw [pfmerge, emptyRegisters_eq env, mergeKeys_eq env h, Finset.empty_union, Meaning.pfmerge]
  by_cases hother : ∃ key ∈ dest :: sources, m.IsOther now key
  · rw [if_pos hother, if_pos hother]
    exact h
  · rw [if_neg hother, if_neg hother]
    exact h.put env dest ⟨.elements _, none⟩

/-- `PFCOUNT` of one key answers with the cached count, and that is the count of its elements. -/
theorem pfcount_eq (h : Tracks env data m) (keys : List κ) (now : Instant) :
    pfcount env data keys now = m.pfcount env keys now := by
  unfold pfcount Meaning.pfcount
  split
  · next key =>
    rw [h.live]
    cases hlive : m.live now key with
    | none => simp [Meaning.IsOther, hlive]
    | some slot =>
      obtain ⟨value, expiresAt⟩ := slot
      cases value <;> simp [Meaning.IsOther, Meaning.elementsAt, realise, hlive]
  · next hkeys =>
    have hmany : ¬ ∃ key, keys = [key] ∧ m.live now key = none := fun ⟨key, heq, _⟩ => hkeys key heq
    rw [emptyRegisters_eq env, mergeKeys_eq env h, Finset.empty_union, if_neg hmany]
    split <;> rfl

/-- **A key that is loaded again is as it was**, with its count. -/
theorem reload_eq (h : Tracks env data m) (key : κ) (other : κ) :
    (reload env data key).lookup other = data.lookup other := by
  unfold reload
  have hkey := h key
  cases hm : m key with
  | none =>
    rw [hm] at hkey
    rw [hkey]
    rfl
  | some slot =>
    obtain ⟨value, expiresAt⟩ := slot
    rw [hm] at hkey
    cases value with
    | other value =>
      rw [hkey]
      rfl
    | elements added =>
      have hread := reads_readRegisters (validRegisters_registersOf env added) []
      rw [append_nil] at hread
      simp only [hkey, Option.map_some, realise, hread]
      by_cases hother : other = key
      · subst hother
        rw [lookup_put_self, hkey]
        rfl
      · exact lookup_put_of_ne _ _ hother

/-- **The step.** -/
theorem tracks_step (h : Tracks env data m) (op : Op κ ω) :
    Tracks env (step env data op) (m.step op) := by
  cases op with
  | pfadd key elements now => exact tracks_pfadd env h key elements now
  | pfmerge dest sources now => exact tracks_pfmerge env h dest sources now
  | reload key => exact fun other => (reload_eq env h key other).trans (h other)
  | write key value expiresAt => exact h.put env key ⟨.other value, expiresAt⟩
  | setDeadline key expiresAt =>
    rw [step, Meaning.step, h key]
    cases hm : m key with
    | none =>
      have hsame : Function.update m key none = m := by rw [← hm, Function.update_eq_self]
      rw [Option.map_none, Option.map_none, hsame]
      exact h
    | some slot => exact h.put env key { slot with expiresAt }
  | remove key =>
    intro other
    by_cases hkey : other = key
    · subst hkey
      rw [step, lookup_erase_self, Meaning.step, Function.update_self]
      rfl
    · rw [step, lookup_erase_of_ne _ hkey, Meaning.step, Function.update_of_ne hkey]
      exact h other

end Steps

/-- **Registers are a function of the set added.**  Whatever was added and merged, in whatever
order, with keys reloaded, expired, removed and overwritten in between: under each key stand the
registers of the set of elements added to it and the count computed from them, and `PFCOUNT`
answers with the count of the elements under its keys.  Registers of sets merge into those of the
union, and the reader accepts them. -/
theorem registers_track_added (env : Env) (ops : List (Op κ ω)) :
    (∀ key, (Runs.run (step env) ([] : Data κ ω) ops).lookup key =
        (Runs.run Meaning.step (fun _ => none) ops key).map (realise env)) ∧
      (∀ keys now, pfcount env (Runs.run (step env) ([] : Data κ ω) ops) keys now =
        (Runs.run Meaning.step (fun _ => none) ops).pfcount env keys now) ∧
      (∀ s t, hllMerge (registersOf env s) (registersOf env t) = registersOf env (s ∪ t)) ∧
      ∀ s, Reads (readRegisters hllRegisters) (registersOf env s) (registersOf env s) := by
  have hrun : Tracks env (Runs.run (step env) ([] : Data κ ω) ops)
      (Runs.run Meaning.step (fun _ => none) ops) :=
    foldl_rel (fun _ => rfl) fun op _ data m h => tracks_step env h op
  refine ⟨hrun, pfcount_eq env hrun, hllMerge_registersOf env, fun s => ?_⟩
  · have hreads := reads_readRegisters (validRegisters_registersOf env s)
    rwa [length_registersOf] at hreads

end Lux.HyperLogLog
