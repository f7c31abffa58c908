import Cube.Lib.Outcome

/-!
# Strings in memory

The functions of `memfunc.c` on strings that end with a zero. A string is given by the
memory from its address on, as far as it may be read; reading or writing beyond it is a
fault.

* `strnlen_cstr`, `strnlen_long`, `strlen_cstr`: lengths, up to the zero or the limit;
* `strncpy_cstr`, `strncpy_full`, `strncpy_string`: what a copy leaves in the memory it is made to.
-/

namespace Cube.Text

open Lib

/-- `Strnlen`. -/
def strnlen : List UInt8 → Nat → Outcome Nat
  | _, 0 => .done 0
  | [], _ + 1 => .fault
  | c :: str, n + 1 => if c = 0 then .done 0 else (· + 1) <$> strnlen str n

/-- `Strlen`. -/
def strlen : List UInt8 → Outcome Nat
  | [] => .fault
  | c :: str => if c = 0 then .done 0 else (· + 1) <$> strlen str

/-- `Strncpy`: the memory from `dest` on after the copy. The source is looked at once more
    when the limit is reached, and there is an end only where there is room for it. -/
def strncpy : List UInt8 → List UInt8 → Nat → Outcome (List UInt8)
  | _, [], _ => .fault
  | dest, _ :: _, 0 => .done dest
  | [], _ :: _, _ + 1 => .fault
  | _ :: dest, c :: src, n + 1 =>
    if c = 0 then .done (0 :: dest) else (c :: ·) <$> strncpy dest src n

/-- `Memcmp` of two blocks of the same size, which is not zero. -/
def memcmp : List UInt8 → List UInt8 → Int
  | a :: s1, b :: s2 =>
    if s1 ≠ [] ∧ a = b then memcmp s1 s2 else (a.toNat : Int) - b.toNat
  | _, _ => 0

/-! ## What they come to -/

variable {str rest dest : List UInt8} {n : Nat}

theorem strnlen_cstr (hstr : 0 ∉ str) (hn : str.length ≤ n) :
    strnlen (str ++ 0 :: rest) n = .done str.length := by
  induction str generalizing n with
  | nil => cases n <;> simp [strnlen]
  | cons c str ih =>
    rw [List.mem_cons, not_or] at hstr
    rcases n with _ | n
    · cases hn
    · rw [List.cons_append, strnlen, if_neg (Ne.symm hstr.1), ih hstr.2 (Nat.le_of_succ_le_succ hn)]
      rfl

theorem strnlen_le {block : List UInt8} {len : Nat} (h : strnlen block n = .done len) : len ≤ n := by
  induction block generalizing n len with
  | nil =>
    rcases n with _ | n
    · simp only [strnlen, Outcome.done.injEq] at h
      omega
    · cases h
  | cons c block ih =>
    rcases n with _ | n
    · simp only [strnlen, Outcome.done.injEq] at h
      omega
    · rw [strnlen] at h
      split_ifs at h
      · rw [← Outcome.done.inj h]
        exact Nat.zero_le _
      · obtain ⟨m, hm, rfl⟩ := Outcome.map_eq_done.1 h
        exact Nat.succ_le_succ (ih hm)

/-- There may be no end within the limit. -/
theorem strnlen_long (hstr : 0 ∉ str) (hn : n ≤ str.length) :
    strnlen (str ++ rest) n = .done n := by
  induction str generalizing n with
  | nil =>
    obtain rfl := Nat.le_zero.1 hn
    simp [strnlen]
  | cons c str ih =>
    rw [List.mem_cons, not_or] at hstr
    rcases n with _ | n
    · simp [strnlen]
    · rw [List.cons_append, strnlen, if_neg (Ne.symm hstr.1), ih hstr.2 (Nat.le_of_succ_le_succ hn)]
      rfl

theorem strlen_cstr (hstr : 0 ∉ str) : strlen (str ++ 0 :: rest) = .done str.length := by
  induction str with
  | nil => simp [strlen]
  | cons c str ih =>
    rw [List.mem_cons, not_or] at hstr
    rw [List.cons_append, strlen, if_neg (Ne.symm hstr.1), ih hstr.2]
    rfl

/-- Where a string ends is told by its first zero. -/
theorem cstr_inj {str' rest' : List UInt8} (hstr : 0 ∉ str) (hstr' : 0 ∉ str')
    (h : str ++ 0 :: rest = str' ++ 0 :: rest') : str = str' := by
  have hlen : strlen (str ++ 0 :: rest) = .done str.length := strlen_cstr hstr
  rw [h, strlen_cstr hstr', Outcome.done.injEq] at hlen
  exact List.append_inj_left h hlen.symm

/-- A string below the limit is copied with its end. -/
theorem strncpy_cstr (hstr : 0 ∉ str) (hn : str.length < n) {d : UInt8} {old : List UInt8}
    (hold : old.length = str.length) :
    strncpy (old ++ d :: dest) (str ++ 0 :: rest) n = .done (str ++ 0 :: dest) := by
  induction str generalizing n old with
  | nil =>
    obtain rfl := List.length_eq_zero_iff.1 hold
    rcases n with _ | n
    · cases hn
    · simp [strncpy]
  | cons c str ih =>
    rw [List.mem_cons, not_or] at hstr
    rcases n with _ | n
    · cases hn
    · rcases old with _ | ⟨o, old⟩
      · cases hold
      · rw [List.cons_append, List.cons_append, strncpy, if_neg (Ne.symm hstr.1),
          ih hstr.2 (Nat.lt_of_succ_lt_succ hn) (Nat.succ.inj hold)]
        rfl

/-- As much of a string as the limit allows is copied without an end. -/
theorem strncpy_full (hstr : 0 ∉ str) {c : UInt8} {old : List UInt8}
    (hold : old.length = str.length) :
    strncpy (old ++ dest) (str ++ c :: rest) str.length = .done (str ++ dest) := by
  induction str generalizing old with
  | nil =>
    obtain rfl := List.length_eq_zero_iff.1 hold
    simp [strncpy]
  | cons b str ih =>
    rw [List.mem_cons, not_or] at hstr
    rcases old with _ | ⟨o, old⟩
    · cases hold
    · rw [List.cons_append, List.cons_append, List.length_cons, strncpy, if_neg (Ne.symm hstr.1),
        ih hstr.2 (Nat.succ.inj hold)]
      rfl

/-- A string is copied as far as the limit allows, with its end if it is below the limit. -/
theorem strncpy_string (hstr : 0 ∉ str) (hn : n ≤ dest.length) :
    strncpy dest (str ++ 0 :: rest) n =
      .done (if str.length < n then str ++ 0 :: dest.drop (str.length + 1)
        else str.take n ++ dest.drop n) := by
  rcases Nat.lt_or_ge str.length n with hlt | hge
  · have hlen : str.length < dest.length := hlt.trans_le hn
    have hdest : dest = dest.take str.length ++ dest[str.length] :: dest.drop (str.length + 1) := by
      rw [← List.drop_eq_getElem_cons hlen, List.take_append_drop]
    rw [if_pos hlt, hdest, strncpy_cstr hstr hlt (List.length_take_of_le hlen.le), ← hdest]
  · have htake : (str.take n).length = n := List.length_take_of_le hge
    obtain ⟨c, behind, hbehind⟩ : ∃ c behind, str.drop n ++ 0 :: rest = c :: behind := by
      cases str.drop n <;> exact ⟨_, _, rfl⟩
    have hsplit : str ++ 0 :: rest = str.take n ++ c :: behind := by
      rw [← hbehind, ← List.append_assoc, List.take_append_drop]
    have hcopy : strncpy (dest.take n ++ dest.drop n) (str.take n ++ c :: behind)
        (str.take n).length = .done (str.take n ++ dest.drop n) :=
      strncpy_full (fun h => hstr (List.mem_of_mem_take h))
        (by rw [htake, List.length_take_of_le hn])
    rw [htake, List.take_append_drop, ← hsplit] at hcopy
    rw [if_neg (Nat.not_lt.2 hge), hcopy]

/-- Blocks of one size compare equal exactly when they are. -/
theorem memcmp_eq_zero {s t : List UInt8} (h : s.length = t.length) : memcmp s t = 0 ↔ s = t := by
  induction s generalizing t with
  | nil => simp [memcmp, List.length_eq_zero_iff.1 h.symm]
  | cons a s ih =>
    obtain ⟨b, t, rfl⟩ := List.exists_cons_of_length_eq_add_one h.symm
    have hlen : s.length = t.length := Nat.succ.inj h
    have hdiff : (a.toNat : Int) - b.toNat = 0 ↔ a = b := by
      rw [← UInt8.toNat_inj]
      omega
    rw [memcmp, List.cons.injEq]
    split_ifs with hmore
    · rw [ih hlen, and_iff_right hmore.2]
    · -- the last byte, or one that differs
      rw [hdiff]
      refine ⟨fun hab => ⟨hab, ?_⟩, fun hst => hst.1⟩
      obtain rfl : s = [] := by_contra fun hs => hmore ⟨hs, hab⟩
      exact (List.length_eq_zero_iff.1 hlen.symm).symm

/-- A block compares equal with zeros exactly when it has no other bytes. -/
theorem memcmp_zero (block : List UInt8) :
    memcmp (.replicate block.length 0) block = 0 ↔ ∀ c ∈ block, c = 0 := by
  rw [memcmp_eq_zero List.length_replicate, eq_comm, List.eq_replicate_iff, and_iff_right rfl]

/-- A block of memory is a string and what is behind it, or has no end. -/
theorem exists_cstr (block : List UInt8) :
    0 ∉ block ∨ ∃ str rest : List UInt8, 0 ∉ str ∧ block = str ++ 0 :: rest := by
  by_cases h : 0 ∈ block
  · obtain ⟨str, rest, heq, hstr⟩ := List.eq_append_cons_of_mem h
    exact .inr ⟨str, rest, hstr, heq⟩
  · exact .inl h

end Cube.Text
