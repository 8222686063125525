import Lux.ByteCodec

/-!
# Envelopes with a length and a digest

An envelope is a magic number, the length of its body in eight bytes, a digest of
the body and the body itself. `Damaged` lists what may become of such a file: it
is cut short, something is appended, or one of the three fields behind the magic
number is altered. `Damaged.broken` sorts the damage by the check that notices
it: too few bytes for the head, a length that is not the length of what follows,
or a digest that is not the digest of what follows.

Nothing is assumed of the digest but its length and that the two bodies at hand
do not collide.
-/

namespace Envelope

open ByteCodec List

def digestLen : Nat := 32

/-- A digest of fixed length. -/
structure Hash where
  digest : Bytes → Bytes
  digest_length : ∀ body, (digest body).length = digestLen

variable (hash : Hash) (magic : Bytes)

def envelope (body : Bytes) : Bytes :=
  magic ++ (leBytes 8 body.length ++ (hash.digest body ++ body))

/-- The three fields behind the magic number. -/
inductive Region where
  | length
  | digest
  | body
  deriving DecidableEq, Repr

/-- Where a field begins, behind a magic number of `m` bytes. -/
def Region.start (m : Nat) : Region → Nat
  | .length => m
  | .digest => m + 8
  | .body => m + 8 + digestLen

/-- Where a field of a file of `n` bytes ends. -/
def Region.stop (m n : Nat) : Region → Nat
  | .length => m + 8
  | .digest => m + 8 + digestLen
  | .body => n

/-- A damaged copy of a file with a magic number of `m` bytes. -/
inductive Damaged (m : Nat) (file : Bytes) : Bytes → Prop
  | truncated (n : Nat) (h : n < file.length) : Damaged m file (file.take n)
  | extended (more : Bytes) (h : more ≠ []) : Damaged m file (file ++ more)
  | altered (region : Region) (copy : Bytes) (hlen : copy.length = file.length)
      (hne : copy ≠ file) (hbefore : copy.take (region.start m) = file.take (region.start m))
      (hbehind : copy.drop (region.stop m file.length) = file.drop (region.stop m file.length)) :
      Damaged m file copy

/-- The bodies of a file and of a copy do not collide. -/
def NoCollision (m : Nat) (file copy : Bytes) : Prop :=
  hash.digest (copy.drop (m + 8 + digestLen)) = hash.digest (file.drop (m + 8 + digestLen)) →
    copy.drop (m + 8 + digestLen) = file.drop (m + 8 + digestLen)

/-- What a reader that follows the layout notices first. -/
inductive Broken : Bytes → Prop
  | noMagic (copy : Bytes) (h : copy.length < magic.length) : Broken copy
  | noHead (rest : Bytes) (h : rest.length < 8 + digestLen) : Broken (magic ++ rest)
  | badLength (len digest body : Bytes) (hlen : len.length = 8)
      (hdigest : digest.length = digestLen) (h : ofLeBytes len ≠ body.length) :
      Broken (magic ++ (len ++ (digest ++ body)))
  | badDigest (len digest body : Bytes) (hlen : len.length = 8)
      (hdigest : digest.length = digestLen) (h : hash.digest body ≠ digest) :
      Broken (magic ++ (len ++ (digest ++ body)))

variable {hash magic}

/-- Four consecutive parts of a file, from their lengths. -/
theorem split_at {copy before : Bytes} {m k : Nat} (hbefore : copy.take m = before)
    (hlen : m + k ≤ copy.length) :
    ∃ field, copy = before ++ (field ++ copy.drop (m + k)) ∧ field.length = k := by
  refine ⟨(copy.drop m).take k, ?_, ?_⟩
  · rw [← hbefore, ← drop_drop, take_append_drop, take_append_drop]
  · rw [length_take, length_drop]
    omega

variable {body copy : Bytes}

theorem envelope_length :
    (envelope hash magic body).length = magic.length + 8 + digestLen + body.length := by
  simp only [envelope, length_append, leBytes_length, hash.digest_length]
  omega

/-- The head of an envelope, with its length. -/
theorem envelope_eq_head_append (hash : Hash) (magic body : Bytes) : ∃ head,
    head = magic ++ (leBytes 8 body.length ++ hash.digest body) ∧
      head.length = magic.length + 8 + digestLen ∧ envelope hash magic body = head ++ body := by
  refine ⟨_, rfl, ?_, by simp [envelope]⟩
  simp only [length_append, leBytes_length, hash.digest_length]
  omega

theorem drop_envelope : (envelope hash magic body).drop (magic.length + 8 + digestLen) = body := by
  obtain ⟨head, -, hlen, hsplit⟩ := envelope_eq_head_append hash magic body
  rw [hsplit, ← hlen, drop_left]

theorem take_envelope : (envelope hash magic body).take magic.length = magic :=
  take_left

theorem take_head : (envelope hash magic body).take (magic.length + 8) =
    magic ++ leBytes 8 body.length := by
  have hhead : (magic ++ leBytes 8 body.length).length = magic.length + 8 := by simp
  rw [envelope, ← append_assoc, ← hhead, take_left]

theorem drop_length : (envelope hash magic body).drop (magic.length + 8) =
    hash.digest body ++ body := by
  have hhead : (magic ++ leBytes 8 body.length).length = magic.length + 8 := by simp
  rw [envelope, ← append_assoc, ← hhead, drop_left]

theorem take_digest : (envelope hash magic body).take (magic.length + 8 + digestLen) =
    magic ++ (leBytes 8 body.length ++ hash.digest body) := by
  obtain ⟨head, hhead, hlen, hsplit⟩ := envelope_eq_head_append hash magic body
  rw [hsplit, ← hlen, take_left, hhead]

variable (hsize : body.length < 2 ^ 64)
include hsize

/-- A length field is the length it was written for. -/
theorem ofLeBytes_length :
    ofLeBytes (leBytes 8 body.length) = body.length := by
  rw [ofLeBytes_leBytes]
  exact Nat.mod_eq_of_lt hsize

theorem broken_of_truncated {n : Nat}
    (h : n < (envelope hash magic body).length) :
    Broken hash magic ((envelope hash magic body).take n) := by
  rw [envelope_length] at h
  by_cases hmagic : n < magic.length
  · apply Broken.noMagic
    rw [length_take]
    omega
  have htake : (envelope hash magic body).take n = magic ++
      (leBytes 8 body.length ++ (hash.digest body ++ body)).take (n - magic.length) := by
    rw [envelope, take_append, take_of_length_le (by omega)]
  rw [htake]
  by_cases hhead : n < magic.length + 8 + digestLen
  · apply Broken.noHead
    rw [length_take]
    omega
  -- The head is complete, so that the cut is inside the body.
  have hinner : (leBytes 8 body.length ++ (hash.digest body ++ body)).take
      (n - magic.length) = leBytes 8 body.length ++
        (hash.digest body ++ body.take (n - magic.length - 8 - digestLen)) := by
    rw [take_append, take_of_length_le (by simp; omega), leBytes_length,
      take_append, take_of_length_le (by rw [hash.digest_length]; omega),
      hash.digest_length]
  rw [hinner]
  apply Broken.badLength _ _ _ (leBytes_length 8 _) (hash.digest_length body)
  rw [ofLeBytes_length hsize, length_take]
  omega

theorem broken_of_altered {region : Region}
    (hlen : copy.length = (envelope hash magic body).length)
    (hne : copy ≠ envelope hash magic body)
    (hbefore : copy.take (region.start magic.length) =
      (envelope hash magic body).take (region.start magic.length))
    (hbehind : copy.drop (region.stop magic.length (envelope hash magic body).length) =
      (envelope hash magic body).drop (region.stop magic.length (envelope hash magic body).length))
    (hcollide : NoCollision hash magic.length (envelope hash magic body) copy) :
    Broken hash magic copy := by
  rw [envelope_length] at hlen
  cases region with
  | length =>
    have hmagic : copy.take magic.length = magic := hbefore.trans take_envelope
    obtain ⟨field, hcopy, hfield⟩ := split_at (k := 8) hmagic (by rw [hlen]; omega)
    have hdrop : copy.drop (magic.length + 8) = hash.digest body ++ body :=
      hbehind.trans drop_length
    rw [hdrop] at hcopy
    subst hcopy
    apply Broken.badLength _ _ _ hfield (hash.digest_length body)
    intro heq
    apply hne
    have hback := leBytes_ofLeBytes hfield
    rw [heq] at hback
    rw [envelope, hback]
  | digest =>
    have hhead : copy.take (magic.length + 8) = magic ++ leBytes 8 body.length :=
      hbefore.trans take_head
    obtain ⟨field, hcopy, hfield⟩ := split_at (k := digestLen) hhead (by rw [hlen]; omega)
    have hdrop : copy.drop (magic.length + 8 + digestLen) = body := hbehind.trans drop_envelope
    rw [hdrop, append_assoc] at hcopy
    subst hcopy
    apply Broken.badDigest _ _ _ (leBytes_length 8 _) hfield
    rintro rfl
    exact hne rfl
  | body =>
    have hcopy : copy = magic ++ (leBytes 8 body.length ++ (hash.digest body ++
        copy.drop (magic.length + 8 + digestLen))) := by
      have hsplit := take_append_drop (magic.length + 8 + digestLen) copy
      have hhead : copy.take (magic.length + 8 + digestLen) =
          magic ++ (leBytes 8 body.length ++ hash.digest body) := hbefore.trans take_digest
      rw [hhead] at hsplit
      simpa using hsplit.symm
    rw [hcopy]
    apply Broken.badDigest _ _ _ (leBytes_length 8 _) (hash.digest_length body)
    intro heq
    have hsame := hcollide (by rw [drop_envelope]; exact heq)
    rw [drop_envelope] at hsame
    apply hne
    rw [hcopy, hsame, envelope]

/-- **Every damage is noticed by one of the checks.** -/
theorem Damaged.broken (h : Damaged magic.length (envelope hash magic body) copy)
    (hcollide : NoCollision hash magic.length (envelope hash magic body) copy) :
    Broken hash magic copy := by
  cases h with
  | truncated n hn => exact broken_of_truncated hsize hn
  | extended more hmore =>
    have hcopy : envelope hash magic body ++ more =
        magic ++ (leBytes 8 body.length ++ (hash.digest body ++ (body ++ more))) := by
      simp [envelope]
    rw [hcopy]
    apply Broken.badLength _ _ _ (leBytes_length 8 _) (hash.digest_length body)
    have hpos : 0 < more.length := length_pos_iff.mpr hmore
    rw [ofLeBytes_length hsize, length_append]
    omega
  | altered region _ hlen hne hbefore hbehind =>
    exact broken_of_altered hsize hlen hne hbefore hbehind hcollide

end Envelope
