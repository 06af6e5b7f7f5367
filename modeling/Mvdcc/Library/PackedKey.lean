import Mathlib.Data.List.Basic
import Mathlib.Data.Nat.Basic
import Mathlib.Algebra.BigOperators.Group.List.Basic
import Mathlib.Algebra.Ring.Nat

namespace Mvdcc.Library

/-- A bit-field of a word: its width, and the value assigned to it. -/
structure BitField where
  width : Nat
  value : Nat

namespace BitField

/-- The word of some bit-fields, the first of them in the lowest bits. A field
keeps what fits of its value. -/
def pack : List BitField → Nat
  | [] => 0
  | f :: fs => f.value % 2 ^ f.width + 2 ^ f.width * pack fs

/-- No value loses bits. -/
def Fit (fs : List BitField) : Prop := ∀ f ∈ fs, f.value < 2 ^ f.width

theorem Fit.head {f : BitField} {fs : List BitField} (h : Fit (f :: fs)) :
    f.value % 2 ^ f.width = f.value :=
  Nat.mod_eq_of_lt (h f (List.mem_cons_self ..))

theorem Fit.tail {f : BitField} {fs : List BitField} (h : Fit (f :: fs)) : Fit fs :=
  fun g hg => h g (List.mem_cons_of_mem _ hg)

theorem fit_nil : Fit [] := by
  intro f hf
  cases hf

theorem fit_cons {f : BitField} {fs : List BitField} (h : f.value < 2 ^ f.width) (ht : Fit fs) :
    Fit (f :: fs) := by
  intro g hg
  rcases List.mem_cons.mp hg with rfl | hg
  · exact h
  · exact ht g hg

theorem pack_lt (fs : List BitField) : pack fs < 2 ^ (fs.map width).sum := by
  induction fs with
  | nil => exact Nat.one_pos
  | cons f fs ih =>
    have hlow : f.value % 2 ^ f.width < 2 ^ f.width := Nat.mod_lt _ (Nat.two_pow_pos _)
    calc pack (f :: fs) < 2 ^ f.width + 2 ^ f.width * pack fs := Nat.add_lt_add_right hlow _
      _ = 2 ^ f.width * (pack fs + 1) := by rw [Nat.mul_succ, Nat.add_comm]
      _ ≤ 2 ^ f.width * 2 ^ (fs.map width).sum := Nat.mul_le_mul_left _ ih
      _ = 2 ^ ((f :: fs).map width).sum := by rw [List.map_cons, List.sum_cons, Nat.pow_add]

/-- Comparing the highest digits first: a number in base `m` by its quotient, then its remainder. -/
theorem add_mul_lt_iff {m a b q r : Nat} (ha : a < m) (hb : b < m) :
    a + m * q < b + m * r ↔ q < r ∨ q = r ∧ a < b := by
  constructor
  · intro h
    rcases Nat.lt_trichotomy q r with hq | rfl | hq
    · exact Or.inl hq
    · exact Or.inr ⟨rfl, Nat.lt_of_add_lt_add_right h⟩
    · have := Nat.mul_le_mul_left m hq
      rw [Nat.mul_succ] at this
      omega
  · rintro (hq | ⟨rfl, hab⟩)
    · have := Nat.mul_le_mul_left m hq
      rw [Nat.mul_succ] at this
      omega
    · exact Nat.add_lt_add_right hab _

theorem add_mul_inj {m a b q r : Nat} (ha : a < m) (hb : b < m) :
    a + m * q = b + m * r ↔ a = b ∧ q = r := by
  constructor
  · intro h
    have hdiv : ∀ x y, x < m → (x + m * y) / m = y := by
      intro x y hx
      rw [Nat.add_mul_div_left _ _ (Nat.zero_lt_of_lt hx), Nat.div_eq_of_lt hx, Nat.zero_add]
    have hqr : q = r := by rw [← hdiv a q ha, h, hdiv b r hb]
    exact ⟨Nat.add_right_cancel (hqr ▸ h), hqr⟩
  · rintro ⟨rfl, rfl⟩
    rfl

theorem pack_inj {fs gs : List BitField} (hw : fs.map width = gs.map width) (hf : Fit fs)
    (hg : Fit gs) : pack fs = pack gs ↔ fs.map value = gs.map value := by
  induction fs generalizing gs with
  | nil =>
    obtain rfl : gs = [] := List.map_eq_nil_iff.mp hw.symm
    simp
  | cons f fs ih =>
    cases gs with
    | nil => cases hw
    | cons g gs =>
      obtain ⟨hwidth, hwidths⟩ := List.cons_eq_cons.mp hw
      have hvalue : g.value < 2 ^ f.width := hwidth ▸ hg g (List.mem_cons_self ..)
      rw [pack, pack, hf.head, hg.head, ← hwidth,
        add_mul_inj (hf f (List.mem_cons_self ..)) hvalue, ih hwidths hf.tail hg.tail,
        List.map_cons, List.map_cons, List.cons_eq_cons]

/-- Lists of one length compare by their last elements last. -/
theorem lex_concat {l l' : List Nat} {a b : Nat} (hl : l.length = l'.length) :
    List.Lex (· < ·) (l ++ [a]) (l' ++ [b]) ↔ List.Lex (· < ·) l l' ∨ l = l' ∧ a < b := by
  induction l generalizing l' with
  | nil =>
    obtain rfl : l' = [] := List.length_eq_zero_iff.mp hl.symm
    simp [List.cons_lex_cons_iff]
  | cons x l ih =>
    cases l' with
    | nil => cases hl
    | cons y l' =>
      have hl : l.length = l'.length := Nat.succ.inj hl
      rw [List.cons_append, List.cons_append, List.cons_lex_cons_iff, List.cons_lex_cons_iff,
        ih hl, List.cons_eq_cons]
      tauto

/-- Words of one layout compare as their values do, from the highest bits down. -/
theorem pack_lt_pack {fs gs : List BitField} (hw : fs.map width = gs.map width) (hf : Fit fs)
    (hg : Fit gs) :
    pack fs < pack gs ↔ List.Lex (· < ·) (fs.map value).reverse (gs.map value).reverse := by
  induction fs generalizing gs with
  | nil =>
    obtain rfl : gs = [] := List.map_eq_nil_iff.mp hw.symm
    simp
  | cons f fs ih =>
    cases gs with
    | nil => cases hw
    | cons g gs =>
      obtain ⟨hwidth, hwidths⟩ := List.cons_eq_cons.mp hw
      have hvalue : g.value < 2 ^ f.width := hwidth ▸ hg g (List.mem_cons_self ..)
      have hlength : fs.length = gs.length := by simpa using congrArg List.length hwidths
      rw [pack, pack, hf.head, hg.head, ← hwidth,
        add_mul_lt_iff (hf f (List.mem_cons_self ..)) hvalue, ih hwidths hf.tail hg.tail,
        pack_inj hwidths hf.tail hg.tail, List.map_cons, List.map_cons, List.reverse_cons,
        List.reverse_cons, lex_concat (by simpa using hlength), List.reverse_inj]

end BitField

/-- The bytes of a word in the memory of a little-endian machine. -/
def bytes : Nat → Nat → List Nat
  | 0, _ => []
  | k + 1, n => n % 256 :: bytes k (n / 256)

/-- The word whose bytes in memory are these. -/
def ofBytes : List Nat → Nat
  | [] => 0
  | b :: bs => b + 256 * ofBytes bs

/-- The word with its `k` bytes in the opposite order. -/
def byteSwap (k n : Nat) : Nat := ofBytes (bytes k n).reverse

theorem length_bytes (k n : Nat) : (bytes k n).length = k := by
  induction k generalizing n with
  | zero => rfl
  | succ k ih => rw [bytes, List.length_cons, ih]

theorem lt_of_mem_bytes {k n b : Nat} (h : b ∈ bytes k n) : b < 256 := by
  induction k generalizing n with
  | zero => cases h
  | succ k ih =>
    rcases List.mem_cons.mp h with rfl | h
    · exact Nat.mod_lt _ (by decide)
    · exact ih h

theorem bytes_ofBytes {bs : List Nat} (h : ∀ b ∈ bs, b < 256) :
    bytes bs.length (ofBytes bs) = bs := by
  induction bs with
  | nil => rfl
  | cons b bs ih =>
    have hb : b < 256 := h b (List.mem_cons_self ..)
    rw [List.length_cons, bytes, ofBytes, Nat.add_mul_mod_self_left, Nat.mod_eq_of_lt hb,
      Nat.add_mul_div_left _ _ (by decide), Nat.div_eq_of_lt hb, Nat.zero_add,
      ih (fun b' hb' => h b' (List.mem_cons_of_mem _ hb'))]

theorem bytes_byteSwap (k n : Nat) : bytes k (byteSwap k n) = (bytes k n).reverse := by
  have hlt : ∀ b ∈ (bytes k n).reverse, b < 256 :=
    fun b hb => lt_of_mem_bytes (List.mem_reverse.mp hb)
  have h := bytes_ofBytes hlt
  rwa [List.length_reverse, length_bytes] at h

/-- A word as eight-bit fields. -/
theorem pack_bytes {k n : Nat} (h : n < 256 ^ k) :
    BitField.pack ((bytes k n).map (BitField.mk 8)) = n := by
  induction k generalizing n with
  | zero =>
    rw [Nat.pow_zero, Nat.lt_one_iff] at h
    rw [h]
    rfl
  | succ k ih =>
    have hq : n / 256 < 256 ^ k := Nat.div_lt_of_lt_mul (by rwa [Nat.mul_comm, ← Nat.pow_succ])
    rw [bytes, List.map_cons, BitField.pack, ih hq]
    change n % 256 % 256 + 256 * (n / 256) = n
    rw [Nat.mod_mod, Nat.mod_add_div]

/-- Byte by byte, swapped words compare as the words do. -/
theorem bytes_byteSwap_lt {k m n : Nat} (hm : m < 256 ^ k) (hn : n < 256 ^ k) :
    List.Lex (· < ·) (bytes k (byteSwap k m)) (bytes k (byteSwap k n)) ↔ m < n := by
  have hfit : ∀ n, BitField.Fit ((bytes k n).map (BitField.mk 8)) := by
    intro n f hf
    obtain ⟨b, hb, rfl⟩ := List.mem_map.mp hf
    exact lt_of_mem_bytes hb
  have hwidths : ∀ n, ((bytes k n).map (BitField.mk 8)).map BitField.width = List.replicate k 8 := by
    intro n
    simp [Function.comp_def, length_bytes]
  have hvalues : ∀ n, ((bytes k n).map (BitField.mk 8)).map BitField.value = bytes k n := by
    intro n
    rw [List.map_map]
    exact List.map_id _
  have h := BitField.pack_lt_pack ((hwidths m).trans (hwidths n).symm) (hfit m) (hfit n)
  rw [pack_bytes hm, pack_bytes hn, hvalues, hvalues] at h
  rw [bytes_byteSwap, bytes_byteSwap]
  exact h.symm

end Mvdcc.Library
