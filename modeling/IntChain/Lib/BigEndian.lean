import Mathlib.Data.List.Induction
import Mathlib.Algebra.Order.Group.Nat
import Mathlib.Tactic.Ring
import Mathlib.Tactic.Linarith

/-!
# Big-endian bytes of a natural number

`beBytes k i` is `i` in base 256, most significant byte first, in at most `k` bytes: a number
below `256 ^ k` gets its shortest form, with at least one byte and no leading zero byte.
`byteLength k i` counts those bytes by shifting right until nothing is left, and `ofBE` reads
bytes back. The two directions are inverse on numbers below `256 ^ k` and on byte strings of
at most `k` bytes that do not start with a zero byte (`ofBE_beBytes`, `beBytes_ofBE`).
-/

namespace BigEndian

/-- The bytes of `i`, most significant first, in at most `k` bytes. -/
def beBytes : Nat → Nat → List UInt8
  | 0, _ => []
  | k + 1, i => if i < 256 then [UInt8.ofNat i] else beBytes k (i / 256) ++ [UInt8.ofNat (i % 256)]

/-- How many bytes `beBytes` writes: one, and one more for each shift by eight bits that leaves
something. -/
def byteLength : Nat → Nat → Nat
  | 0, _ => 0
  | k + 1, i => if i < 256 then 1 else byteLength k (i / 256) + 1

/-- The number the bytes stand for, most significant first. -/
def ofBE (l : List UInt8) : Nat := l.foldl (fun n b => n * 256 + b.toNat) 0

/-- The shortest bytes of `i` with no bound on their number: none for zero. -/
def toBytes (i : Nat) : List UInt8 :=
  if i = 0 then [] else toBytes (i / 256) ++ [UInt8.ofNat (i % 256)]
termination_by i
decreasing_by omega

@[simp] theorem ofBE_nil : ofBE [] = 0 := rfl

theorem ofBE_append_singleton (l : List UInt8) (b : UInt8) :
    ofBE (l ++ [b]) = ofBE l * 256 + b.toNat := by
  simp [ofBE, List.foldl_append]

theorem ofBE_singleton (b : UInt8) : ofBE [b] = b.toNat := by
  simpa using ofBE_append_singleton [] b

theorem ofBE_lt (l : List UInt8) : ofBE l < 256 ^ l.length := by
  induction l using List.reverseRecOn with
  | nil => simp
  | append_singleton l b ih =>
    rw [ofBE_append_singleton, List.length_append, List.length_singleton, pow_succ]
    have hb : b.toNat < 256 := b.toNat_lt
    nlinarith

theorem length_beBytes (k i : Nat) : (beBytes k i).length = byteLength k i := by
  induction k generalizing i with
  | zero => rfl
  | succ k ih =>
    unfold beBytes byteLength
    split_ifs <;> simp [ih]

theorem ofBE_beBytes {k i : Nat} (h : i < 256 ^ k) : ofBE (beBytes k i) = i := by
  induction k generalizing i with
  | zero => simp at h; subst h; rfl
  | succ k ih =>
    unfold beBytes
    split_ifs with hi
    · rw [ofBE_singleton, UInt8.toNat_ofNat_of_lt' hi]
    · -- the high bytes are `i / 256`, below `256 ^ k`
      have hq : i / 256 < 256 ^ k := by
        rw [pow_succ] at h
        omega
      have hm : i % 256 < 256 := Nat.mod_lt i (by norm_num)
      rw [ofBE_append_singleton, ih hq, UInt8.toNat_ofNat_of_lt' hm]
      omega

theorem byteLength_pos {k : Nat} (hk : 0 < k) (i : Nat) : 0 < byteLength k i := by
  cases k with
  | zero => omega
  | succ k =>
    unfold byteLength
    split_ifs <;> omega

theorem byteLength_le (k i : Nat) : byteLength k i ≤ k := by
  induction k generalizing i with
  | zero => exact Nat.le_refl _
  | succ k ih =>
    unfold byteLength
    split_ifs
    · omega
    · have := ih (i / 256)
      omega

/-- The first byte is zero only for the number zero. -/
theorem head_beBytes_ne_zero {k i : Nat} (hi : 0 < i) (h : i < 256 ^ k) :
    (beBytes k i).head? ≠ some 0 := by
  induction k generalizing i with
  | zero => simp at h; omega
  | succ k ih =>
    unfold beBytes
    split_ifs with h256
    · intro he
      simp only [List.head?_cons, Option.some.injEq] at he
      have := congrArg UInt8.toNat he
      rw [UInt8.toNat_ofNat_of_lt' h256] at this
      simp at this
      omega
    · have hq : i / 256 < 256 ^ k := by
        rw [pow_succ] at h
        omega
      have hpos : 0 < i / 256 := by omega
      have hne : beBytes k (i / 256) ≠ [] := by
        intro he
        have := ofBE_beBytes hq
        rw [he, ofBE_nil] at this
        omega
      obtain ⟨c, l', hcl⟩ := List.exists_cons_of_ne_nil hne
      have := ih hpos hq
      rw [hcl] at this ⊢
      simpa using this

/-- A number below `256 ^ n` fits in `n` bytes. -/
theorem byteLength_le_of_lt {k n i : Nat} (hn : 0 < n) (h : i < 256 ^ n) : byteLength k i ≤ n := by
  induction k generalizing i n with
  | zero => exact Nat.zero_le _
  | succ k ih =>
    unfold byteLength
    split_ifs with hi
    · omega
    · -- the high bytes fit in one byte fewer
      have hn' : 1 < n := by
        by_contra hn1
        have : n = 1 := by omega
        subst this
        simp at h
        omega
      have hq : i / 256 < 256 ^ (n - 1) := by
        have : 256 ^ n = 256 ^ (n - 1) * 256 := by
          rw [← pow_succ]
          congr 1
          omega
        rw [this] at h
        omega
      have := ih (by omega : 0 < n - 1) hq
      omega

/-- A leading byte `c` makes the number at least `c * 256 ^ n`, for the `n` bytes after it. -/
theorem le_ofBE_cons (c : UInt8) (l : List UInt8) : c.toNat * 256 ^ l.length ≤ ofBE (c :: l) := by
  induction l using List.reverseRecOn with
  | nil => simp [ofBE_singleton]
  | append_singleton l d ih =>
    rw [← List.cons_append, ofBE_append_singleton, List.length_append, List.length_singleton,
      pow_succ, ← Nat.mul_assoc]
    exact (Nat.mul_le_mul_right 256 ih).trans (Nat.le_add_right _ _)

/-- Bytes without a leading zero, at most `k` of them, are the bytes of the number they read. -/
theorem beBytes_ofBE {k : Nat} {l : List UInt8} (hne : l ≠ []) (hk : l.length ≤ k)
    (hcanon : 2 ≤ l.length → l.head? ≠ some 0) : beBytes k (ofBE l) = l := by
  induction l using List.reverseRecOn generalizing k with
  | nil => exact absurd rfl hne
  | append_singleton l b ih =>
    cases k with
    | zero => simp at hk
    | succ k =>
      unfold beBytes
      rw [ofBE_append_singleton]
      have hb : b.toNat < 256 := b.toNat_lt
      by_cases hl : l = []
      · subst hl
        rw [if_pos (by simpa using hb)]
        simp
      · obtain ⟨c, l', rfl⟩ := List.exists_cons_of_ne_nil hl
        have hhead : c ≠ 0 := by
          have := hcanon (by simp)
          simpa using this
        -- the leading byte is not zero, so the number needs all of the bytes
        have hpos : 0 < ofBE (c :: l') := by
          have hc : 0 < c.toNat := by
            rcases Nat.eq_zero_or_pos c.toNat with h0 | h0
            · exact absurd (UInt8.toNat_inj.1 (by simpa using h0)) hhead
            · exact h0
          have := le_ofBE_cons c l'
          have : 0 < c.toNat * 256 ^ l'.length := Nat.mul_pos hc (Nat.pow_pos (by norm_num))
          omega
        rw [if_neg (by omega)]
        have hdiv : (ofBE (c :: l') * 256 + b.toNat) / 256 = ofBE (c :: l') := by omega
        have hmod : (ofBE (c :: l') * 256 + b.toNat) % 256 = b.toNat := by omega
        rw [hdiv, hmod, UInt8.ofNat_toNat]
        congr 1
        exact ih hl (by simp at hk; simp; omega) fun _ => by simpa using hhead

end BigEndian
