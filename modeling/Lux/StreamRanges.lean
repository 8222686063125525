import Lux.StreamCommands

/-!
# What range reads return

`XRANGE`, `XREVRANGE` and `XREAD` each compute the bounds of a range of the ordered map on
their own. The bounds of the first two are the client's, and the map stops the server when
they are in the wrong order. `XREAD` starts at a successor that wraps to sequence number
zero behind the largest one, and then returns entries at and before the identifier it was
given. The loops of the general path look at the count only after they have pushed an entry,
so a count of zero returns one; the shard's own `XRANGE` takes the count first.

`XREAD` looks up its keys as texts, so it does not find a stream under a key that is none.

`range_reads_iff` says of each command exactly when its reply is the specified one. A stream
here is live and has its entries in order, as an ordered map keeps them.
-/

namespace Lux.Streams

open ByteCodec StdText List SortedMap

/-- A stream that is live in a store at an instant, with its entries in order and fewer of them
than there are machine words. -/
structure LiveStream (now : Instant) where
  store : List (Bytes × Entry)
  key : Bytes
  data : StreamData
  found : live (store.lookup key) now = some (.stream data)
  sorted : SortedMap.Sorted data.entries
  fits : data.entries.length < 2 ^ 64

/-- What the store has under the key of the stream. -/
def LiveStream.slot {now : Instant} (stream : LiveStream now) : Option Entry :=
  stream.store.lookup stream.key

/-- A list cut to a count. -/
def cut {α : Type} (count : Option Nat) (entries : List α) : List α :=
  match count with
  | some c => entries.take c
  | none => entries

/-- The entries between two identifiers, both included. -/
def entriesBetween (stream : StreamData) (start stop : StreamId) : StreamEntries :=
  stream.entries.filter fun p => start ≤ p.1 ∧ p.1 ≤ stop

/-- The entries behind an identifier. -/
def entriesAfter (stream : StreamData) (after : StreamId) : StreamEntries :=
  stream.entries.filter fun p => after < p.1

/-! ## The loops -/

theorem pushUntil_none {α : Type} (result entries : List α) :
    pushUntil none result entries = result ++ entries := by
  induction entries generalizing result with
  | nil => simp [pushUntil]
  | cons x rest ih => simp [pushUntil, ih]

/-- With a count the loop stops behind it, or behind the first entry. -/
theorem pushUntil_some {α : Type} (c : Nat) (entries : List α) :
    ∀ result : List α, result.length < max c 1 →
      pushUntil (some c) result entries = result ++ entries.take (max c 1 - result.length) := by
  induction entries with
  | nil =>
    simp [pushUntil]
  | cons x rest ih =>
    intro result hlength
    rw [pushUntil]
    have hlen : (result ++ [x]).length = result.length + 1 := by simp
    split
    · have hone : max c 1 - result.length = 1 := by
        omega
      rw [hone]
      simp
    · have hmore : (result ++ [x]).length < max c 1 := by
        omega
      rw [ih _ hmore]
      have hsplit : max c 1 - result.length = (max c 1 - (result.length + 1)) + 1 := by
        omega
      rw [hsplit]
      simp

/-- The loop cuts its entries, except that it never cuts them to nothing. -/
theorem pushUntil_eq_cut_iff {α : Type} (count : Option Nat) (entries : List α) :
    pushUntil count [] entries = cut count entries ↔ count ≠ some 0 ∨ entries = [] := by
  cases count with
  | none => simp [pushUntil_none, cut]
  | some c =>
    have hloop := pushUntil_some c entries [] (by simp)
    rw [hloop]
    cases c with
    | zero =>
      cases entries with
      | nil => simp [cut]
      | cons x rest => simp [cut]
    | succ n => simp [cut]

theorem map_pushUntil {α β : Type} (f : α → β) (count : Option Nat) (entries : List α) :
    ∀ result : List α,
      (pushUntil count result entries).map f = pushUntil count (result.map f) (entries.map f) := by
  induction entries with
  | nil => intro result; rfl
  | cons x rest ih =>
    intro result
    cases count with
    | none => simp [pushUntil, ih]
    | some c =>
      have hlength : (result.map f ++ [f x]).length = (result ++ [x]).length := by simp
      simp only [pushUntil, map_cons, hlength]
      split
      · rw [map_append, map_singleton]
      · rw [ih, map_append, map_singleton]

/-- What a reader sees is the specified cut of the entries, unless the count is zero and there
are entries. -/
theorem shown_pushUntil_iff (reveal : Fields → Fields) (count : Option Nat)
    (entries : StreamEntries) :
    shown reveal (pushUntil count [] entries) = cut count (shown reveal entries) ↔
      count ≠ some 0 ∨ entries = [] := by
  rw [shown, map_pushUntil, map_nil, ← shown, pushUntil_eq_cut_iff]
  simp [shown]

/-! ## `XREAD` -/

variable {after : StreamId}

/-- Below the largest sequence number, the successor is the next identifier. -/
theorem successor_le_iff {id : StreamId} (h : after.seq ≠ 0xffffffffffffffff) :
    after.successor ≤ id ↔ after < id := by
  have hseq : (after.seq + 1).toNat = after.seq.toNat + 1 := by
    have hlt := after.seq.toNat_lt
    have hne : after.seq.toNat ≠ 2 ^ 64 - 1 := fun heq => h (UInt64.toNat_inj.mp heq)
    rw [UInt64.toNat_add]
    exact Nat.mod_eq_of_lt (by simp only [UInt64.toNat_one]; omega)
  rw [StreamId.le_iff_rank, StreamId.lt_iff_rank]
  simp only [StreamId.rank, StreamId.successor]
  omega

/-- Behind the largest sequence number, it wraps to the first identifier of the same
millisecond. -/
theorem successor_of_last (h : after.seq = 0xffffffffffffffff) :
    after.successor = ⟨after.ms, 0⟩ := by
  simp [StreamId.successor, h]

/-- The entries that a wrapped successor reads again. -/
def rereads (stream : StreamData) (after : StreamId) : Prop :=
  after.seq = 0xffffffffffffffff ∧ ∃ p ∈ stream.entries, ⟨after.ms, 0⟩ ≤ p.1 ∧ p.1 ≤ after

theorem rangeFrom_successor {stream : StreamData} (h : ¬ rereads stream after) :
    rangeFrom after.successor stream.entries = entriesAfter stream after := by
  apply filter_congr
  intro p hp
  rw [decide_eq_decide]
  by_cases hseq : after.seq = 0xffffffffffffffff
  · have hfirst : (⟨after.ms, 0⟩ : StreamId) ≤ after := by
      rw [StreamId.le_iff]
      exact .inr ⟨rfl, by simp⟩
    rw [successor_of_last hseq]
    constructor
    · intro hle
      exact not_le.mp fun hafter => h ⟨hseq, p, hp, hle, hafter⟩
    · intro hlt
      exact le_trans hfirst (le_of_lt hlt)
  · exact successor_le_iff hseq

/-- An entry read again comes first, and nothing specified comes before it. -/
theorem reread_ne {stream : StreamData} (hsorted : SortedMap.Sorted stream.entries)
    (h : rereads stream after) (reveal : Fields → Fields) (count : Option Nat) :
    shown reveal (pushUntil count [] (rangeFrom after.successor stream.entries)) ≠
      cut count (shown reveal (entriesAfter stream after)) := by
  obtain ⟨hseq, p, hp, hle, hafter⟩ := h
  have hmem : p ∈ rangeFrom after.successor stream.entries := by
    rw [rangeFrom, mem_filter, successor_of_last hseq]
    exact ⟨hp, by simpa using hle⟩
  have hpart : SortedMap.Sorted (rangeFrom after.successor stream.entries) :=
    hsorted.of_sublist filter_sublist
  intro heq
  cases hrange : rangeFrom after.successor stream.entries with
  | nil =>
    rw [hrange] at hmem
    cases hmem
  | cons first rest =>
    rw [hrange] at hmem hpart heq
    have hfirst : first.1 ≤ after := by
      rcases mem_cons.mp hmem with hp | hp
      · rw [← hp]
        exact hafter
      · exact le_trans (le_of_lt ((pairwise_cons.mp hpart).1 p hp)) hafter
    -- The loop pushes the first entry before it looks at the count.
    have hhead : (first.1, reveal first.2) ∈
        shown reveal (pushUntil count [] (first :: rest)) := by
      apply mem_map_of_mem
      cases count with
      | none => simp [pushUntil_none]
      | some c =>
        have hloop := pushUntil_some c (first :: rest) [] (by simp)
        rw [hloop]
        have hpos : max c 1 - ([] : StreamEntries).length = (max c 1 - 1) + 1 := by
          simp only [length_nil]
          omega
        rw [hpos, nil_append]
        exact mem_cons_self
    rw [heq] at hhead
    have hspec : (first.1, reveal first.2) ∈ shown reveal (entriesAfter stream after) := by
      cases count with
      | none => exact hhead
      | some c => exact mem_of_mem_take hhead
    obtain ⟨q, hq, hsame⟩ := mem_map.mp hspec
    have hlt : after < q.1 := by
      have hkept := (mem_filter.mp hq).2
      simpa using hkept
    have hid : q.1 = first.1 := (Prod.mk.inj hsame).1
    rw [hid] at hlt
    exact absurd hfirst (not_le.mpr hlt)

variable {now : Instant}

theorem readAfter_iff (stream : LiveStream now) (reveal : Fields → Fields) (after : StreamId)
    (count : Option Nat) :
    readAfter reveal stream.slot now after count =
        cut count (shown reveal (entriesAfter stream.data after)) ↔
      ¬ rereads stream.data after ∧ (count ≠ some 0 ∨ entriesAfter stream.data after = []) := by
  have hread : readAfter reveal stream.slot now after count =
      shown reveal (pushUntil count []
        (rangeFrom after.successor stream.data.entries)) := by
    rw [readAfter, LiveStream.slot, stream.found]
    rfl
  rw [hread]
  by_cases h : rereads stream.data after
  · constructor
    · intro heq
      exact absurd heq (reread_ne stream.sorted h reveal count)
    · intro hnot
      exact absurd h hnot.1
  · rw [rangeFrom_successor h, shown_pushUntil_iff]
    simp [h]

/-- A key with the entries that were found under it, unless there are none. -/
def found (key : Bytes) (entries : StreamEntries) : List (Bytes × StreamEntries) :=
  if entries = [] then [] else [(key, entries)]

theorem found_inj {key key' : Bytes} {entries entries' : StreamEntries} :
    found key entries = found key' entries' ↔
      entries = entries' ∧ (key = key' ∨ entries = []) := by
  unfold found
  split <;> split <;> grind

/-- `XREAD` with one key reads the stream under the text of the key. -/
theorem cmdXread_one (reveal : Bytes → Fields → Fields) (store : List (Bytes × Entry))
    (key id : Bytes) (count : Option Nat) :
    cmdXread reveal store now [(key, id)] count =
      found (utf8 (argStr key)) (readAfter (reveal (utf8 (argStr key)))
        (store.lookup (utf8 (argStr key))) now (xreadId store now (argStr key) (argStr id))
        count) := by
  simp only [cmdXread, xread, found, map_cons, map_nil, zip_cons_cons, zip_nil_right,
    filterMap_cons, filterMap_nil]
  generalize readAfter (reveal (utf8 (argStr key))) (store.lookup (utf8 (argStr key))) now
    (xreadId store now (argStr key) (argStr id)) count = entries
  by_cases hnone : entries = [] <;> simp [hnone]

/-- Several keys are read one after the other. -/
theorem cmdXread_append (reveal : Bytes → Fields → Fields) (store : List (Bytes × Entry))
    (first second : List (Bytes × Bytes)) (count : Option Nat) :
    cmdXread reveal store now (first ++ second) count =
      cmdXread reveal store now first count ++ cmdXread reveal store now second count := by
  simp only [cmdXread, xread, map_append]
  rw [zip_append (by simp), filterMap_append, map_append]

/-- `XREAD` finds what lies behind the identifier, under its key, exactly if the key is a text,
nothing is read again and the count is not zero; under a key that is no text exactly if there is
nothing to find, under the empty name neither. -/
theorem cmdXread_iff (stream : LiveStream now) (reveal : Bytes → Fields → Fields) (id : Bytes)
    (count : Option Nat) :
    let after := xreadId stream.store now (argStr stream.key) (argStr id)
    cmdXread reveal stream.store now [(stream.key, id)] count =
        found stream.key
          (cut count (shown (reveal stream.key) (entriesAfter stream.data after))) ↔
      if (fromUtf8? stream.key).isSome then
        ¬ rereads stream.data after ∧ (count ≠ some 0 ∨ entriesAfter stream.data after = [])
      else cut count (entriesAfter stream.data after) = [] ∧
        cmdXread reveal stream.store now [([], id)] count = [] := by
  intro after
  rw [cmdXread_one, found_inj]
  split
  · rename_i htext
    obtain ⟨name, hname⟩ := Option.isSome_iff_exists.mp htext
    have hkey : utf8 (argStr stream.key) = stream.key := by
      rw [argStr, hname]
      exact utf8_of_fromUtf8? hname
    rw [hkey, ← LiveStream.slot, readAfter_iff, and_iff_left (.inl rfl)]
  · rename_i htext
    -- the stream under the empty name is read, and its entries would stand under that name
    have hname : argStr stream.key = argStr [] := by
      have hnone : fromUtf8? stream.key = none := by simpa using htext
      rw [argStr, hnone]
      rfl
    have hkey : utf8 (argStr stream.key) ≠ stream.key := by
      intro heq
      rw [← heq, fromUtf8?_utf8] at htext
      exact htext rfl
    have hshown : cut count (shown (reveal stream.key) (entriesAfter stream.data after)) = [] ↔
        cut count (entriesAfter stream.data after) = [] := by
      cases count <;> simp [cut, shown]
    rw [or_iff_right hkey, cmdXread_one, ← hname, ← hshown, found, ite_eq_left_iff]
    constructor
    · rintro ⟨heq, hnone⟩
      exact ⟨heq.symm.trans hnone, fun hsome => absurd hnone hsome⟩
    · rintro ⟨hcut, hnone⟩
      have hempty := not_not.mp (mt hnone (cons_ne_nil _ _))
      exact ⟨hempty.trans hcut.symm, hempty⟩

/-! ## `XRANGE` and `XREVRANGE` -/

/-- A range that is not refused. -/
theorem map_range_eq_some {β : Type} (data : StreamData) (start stop : StreamId)
    {reply : StreamEntries → β} {want : β} :
    (range start stop data.entries).map reply = some want ↔
      start ≤ stop ∧ reply (entriesBetween data start stop) = want := by
  by_cases horder : stop < start
  · simp [SortedMap.range, horder]
  · simp [SortedMap.range, horder, entriesBetween, not_lt.mp horder]

theorem xrange_iff (stream : LiveStream now) (reveal : Fields → Fields) (start stop : StreamId)
    (count : Option Nat) :
    xrange reveal stream.slot now start stop count =
        some (.ok (cut count (shown reveal (entriesBetween stream.data start stop)))) ↔
      start ≤ stop ∧ (count ≠ some 0 ∨ entriesBetween stream.data start stop = []) := by
  rw [xrange, LiveStream.slot, stream.found]
  dsimp only
  rw [map_range_eq_some, Except.ok.injEq, shown_pushUntil_iff]

theorem xrevrange_iff (stream : LiveStream now) (reveal : Fields → Fields) (start stop : StreamId)
    (count : Option Nat) :
    xrevrange reveal stream.slot now stop start count =
        some (.ok (cut count (shown reveal (entriesBetween stream.data start stop)).reverse)) ↔
      start ≤ stop ∧ (count ≠ some 0 ∨ entriesBetween stream.data start stop = []) := by
  have hreverse : (shown reveal (entriesBetween stream.data start stop)).reverse =
      shown reveal (entriesBetween stream.data start stop).reverse := by
    simp [shown]
  rw [xrevrange, LiveStream.slot, stream.found, hreverse]
  dsimp only
  rw [map_range_eq_some, Except.ok.injEq, shown_pushUntil_iff, reverse_eq_nil_iff]

/-- The shard's `XRANGE` takes the count first. -/
theorem xrangeFast_iff (stream : LiveStream now) (start stop : StreamId) (count : Option Nat) :
    xrangeFast stream.slot now start stop count =
        some (.ok (cut count (entriesBetween stream.data start stop))) ↔ start ≤ stop := by
  have htake : (entriesBetween stream.data start stop).take (count.getD (2 ^ 64 - 1)) =
      cut count (entriesBetween stream.data start stop) := by
    cases count with
    | some c => rfl
    | none =>
      have hle : (entriesBetween stream.data start stop).length ≤ 2 ^ 64 - 1 := by
        have hfits := stream.fits
        have hpart : (entriesBetween stream.data start stop).length ≤
            stream.data.entries.length := length_filter_le _ _
        omega
      exact take_of_length_le hle
  rw [xrangeFast, LiveStream.slot, stream.found]
  dsimp only
  rw [map_range_eq_some, htake, and_iff_left rfl]

/-! ## All of them -/

/-- What is specified of a read between two bounds. -/
def RangeExact {now : Instant} (stream : LiveStream now) (reveal : Fields → Fields)
    (startArg stopArg : Str) (count : Option Nat) : Prop :=
  let entries := shown reveal (entriesBetween stream.data (rangeStart startArg) (rangeStop stopArg))
  cmdXrange reveal stream.slot now startArg stopArg count = some (.ok (cut count entries)) ∧
    cmdXrevrange reveal stream.slot now stopArg startArg count =
      some (.ok (cut count entries.reverse))

/-- **Range reads are exact, with these exceptions.**  `XRANGE` and `XREVRANGE` return the
specified entries in increasing and in decreasing order if and only if the bounds are in order
and the count is not zero where there is something to return; the shard's `XRANGE` if and only
if the bounds are in order; and `XREAD` if and only if its key is a text, no entry of the same
millisecond is read again behind the largest sequence number and the count is not zero where there
is something to return, or the key is no text and nothing is to be found under it nor under the
empty name; the other keys of the call do not matter. -/
theorem range_reads_iff {now : Instant} (stream : LiveStream now)
    (reveal : Bytes → Fields → Fields) (startArg stopArg : Str) (id : Bytes)
    (before behind : List (Bytes × Bytes)) (count : Option Nat) :
    let start := rangeStart startArg
    let stop := rangeStop stopArg
    let after := xreadId stream.store now (argStr stream.key) (argStr id)
    ((entriesBetween stream.data start stop).map Prod.fst).Pairwise (· < ·) ∧
    (RangeExact stream (reveal stream.key) startArg stopArg count ↔
      start ≤ stop ∧ (count ≠ some 0 ∨ entriesBetween stream.data start stop = [])) ∧
    (cmdXrangeFast stream.slot now startArg stopArg count =
        some (.ok (cut count (entriesBetween stream.data start stop))) ↔ start ≤ stop) ∧
    (cmdXread reveal stream.store now (before ++ (stream.key, id) :: behind) count =
        cmdXread reveal stream.store now before count ++ (found stream.key
          (cut count (shown (reveal stream.key) (entriesAfter stream.data after))) ++
        cmdXread reveal stream.store now behind count) ↔
      if (fromUtf8? stream.key).isSome then
        ¬ rereads stream.data after ∧ (count ≠ some 0 ∨ entriesAfter stream.data after = [])
      else cut count (entriesAfter stream.data after) = [] ∧
        cmdXread reveal stream.store now [([], id)] count = []) := by
  intro start stop after
  refine ⟨?_, ?_, xrangeFast_iff stream start stop count, ?_⟩
  · exact (stream.sorted.of_sublist filter_sublist).keys
  · constructor
    · intro h
      exact (xrange_iff stream (reveal stream.key) start stop count).mp h.1
    · intro h
      exact ⟨(xrange_iff stream (reveal stream.key) start stop count).mpr h,
        (xrevrange_iff stream (reveal stream.key) start stop count).mpr h⟩
  · rw [cmdXread_append, ← singleton_append, cmdXread_append, append_cancel_left_eq,
      append_cancel_right_eq]
    exact cmdXread_iff stream reveal id count

/-- A stream with the entries `1-0` and `1-18446744073709551615`. -/
def twoEntries : StreamData :=
  ⟨[(⟨1, 0⟩, []), (⟨1, 0xffffffffffffffff⟩, [])], ⟨1, 0xffffffffffffffff⟩, []⟩

/-- The stream in a store. -/
def twoEntriesAt (key : Bytes) : LiveStream 0 where
  store := [(key, ⟨.stream twoEntries, none⟩)]
  key := key
  data := twoEntries
  found := by simp [live, Entry.isExpiredAt]
  sorted := by simp [SortedMap.Sorted, twoEntries]; decide
  fits := by decide

theorem range_reads_iff_two :
    RangeExact (twoEntriesAt [0x73]) (fun fields => fields) (str "1") (str "2") (some 1) ∧
      cmdXread (fun _ fields => fields) (twoEntriesAt [0x73]).store 0 [([0x73], utf8 (str "1-0"))]
        none = [([0x73], [(⟨1, 0xffffffffffffffff⟩, [])])] := by
  obtain ⟨-, hrange, -, -⟩ := range_reads_iff (twoEntriesAt [0x73]) (fun _ fields => fields)
    (str "1") (str "2") [] [] [] (some 1)
  obtain ⟨-, -, -, hread⟩ := range_reads_iff (twoEntriesAt [0x73]) (fun _ fields => fields)
    (str "1") (str "2") (utf8 (str "1-0")) [] [] none
  refine ⟨hrange.mpr ⟨by decide, .inl (by decide)⟩, (hread.mpr ?_).trans ?_⟩
  · refine (if_pos (by decide)).mpr ⟨?_, .inl nofun⟩
    exact fun hagain => absurd hagain.1 (by decide)
  · rfl

/-- Bounds in the wrong order stop the server, a count of zero returns an entry, a read behind
`1-18446744073709551615` returns what came before, and a stream is not found under a key that is
no text. -/
theorem range_reads_astray :
    let slot := (twoEntriesAt [0x73]).slot
    (cmdXrange id slot 0 (str "2") (str "1") none).isNone ∧
      (cmdXrevrange id slot 0 (str "1") (str "2") none).isNone ∧
      (cmdXrangeFast slot 0 (str "2") (str "1") none).isNone ∧
      (cmdXrange id slot 0 (str "-") (str "+") (some 0)).bind Except.toOption =
        some [(⟨1, 0⟩, [])] ∧
      cmdXread (fun _ => id) (twoEntriesAt [0x73]).store 0
        [([0x73], utf8 (str "1-18446744073709551615"))] none = [([0x73], twoEntries.entries)] ∧
      cmdXread (fun _ => id) (twoEntriesAt [0xff]).store 0 [([0xff], utf8 (str "0"))] none =
        [] := by
  refine ⟨?_, ?_, ?_, ?_, ?_, ?_⟩
  · decide
  · decide
  · decide
  · decide
  · rfl
  · rfl

end Lux.Streams
