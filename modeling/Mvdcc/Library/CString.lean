import Mathlib.Data.List.TakeWhile

namespace Mvdcc.Library

/-- An array of `n` characters, as it lies in memory. -/
structure CharArray (n : Nat) where
  bytes : List UInt8
  length_eq : bytes.length = n
  deriving DecidableEq

namespace CString

/-- What is read of a C string: the characters before the first NUL. -/
def read (bytes : List UInt8) : List UInt8 := bytes.takeWhile (· ≠ 0)

def Terminated (bytes : List UInt8) : Prop := 0 ∈ bytes

instance (bytes : List UInt8) : Decidable (Terminated bytes) :=
  inferInstanceAs (Decidable (0 ∈ bytes))

/-- `memcpy` of the first `k` bytes. -/
def memcpy (k : Nat) (dst src : List UInt8) : List UInt8 := src.take k ++ dst.drop k

variable {l l' dst src : List UInt8} {k : Nat}

theorem length_memcpy (h : src.length = dst.length) : (memcpy k dst src).length = dst.length := by
  rw [memcpy, List.length_append, List.length_take, List.length_drop]
  omega

theorem read_cons_zero (l : List UInt8) : read (0 :: l) = [] := rfl

theorem read_cons {c : UInt8} (h : c ≠ 0) (l : List UInt8) : read (c :: l) = c :: read l := by
  rw [read, List.takeWhile_cons_of_pos (by simpa using h)]
  rfl

/-- Nothing is read after a NUL. -/
theorem read_append_of_terminated (h : Terminated l) (l' : List UInt8) :
    read (l ++ l') = read l := by
  induction l with
  | nil => cases h
  | cons c l ih =>
    by_cases hc : c = 0
    · rw [hc, List.cons_append, read_cons_zero, read_cons_zero]
    · have ht : Terminated l := by
        rcases List.mem_cons.mp h with h | h
        · exact absurd h.symm hc
        · exact h
      rw [List.cons_append, read_cons hc, read_cons hc, ih ht]

/-- Without one, reading goes on. -/
theorem read_append (h : ¬ Terminated l) (l' : List UInt8) : read (l ++ l') = l ++ read l' := by
  induction l with
  | nil => rfl
  | cons c l ih =>
    have hc : c ≠ 0 := fun hc => h (hc ▸ List.mem_cons_self ..)
    have hl : ¬ Terminated l := fun hl => h (List.mem_cons_of_mem _ hl)
    rw [List.cons_append, List.cons_append, read_cons hc, ih hl]

/-- Copying a prefix copies the string if it ends in the prefix, or if the rest was there already. -/
theorem read_memcpy_iff : read (memcpy k dst src) = read src ↔
    Terminated (src.take k) ∨ read (dst.drop k) = read (src.drop k) := by
  rw [memcpy]
  by_cases ht : Terminated (src.take k)
  · refine ⟨fun _ => Or.inl ht, fun _ => ?_⟩
    have hsrc := read_append_of_terminated ht (src.drop k)
    rw [List.take_append_drop] at hsrc
    rw [read_append_of_terminated ht, hsrc]
  · have hsrc := read_append ht (src.drop k)
    rw [List.take_append_drop] at hsrc
    rw [read_append ht, hsrc, List.append_cancel_left_eq, or_iff_right ht]

end CString

namespace CharArray
variable {n : Nat}

def read (a : CharArray n) : List UInt8 := CString.read a.bytes

def Terminated (a : CharArray n) : Prop := CString.Terminated a.bytes

instance (a : CharArray n) : Decidable a.Terminated :=
  inferInstanceAs (Decidable (CString.Terminated a.bytes))

def memcpy (k : Nat) (dst src : CharArray n) : CharArray n :=
  ⟨CString.memcpy k dst.bytes src.bytes,
    (CString.length_memcpy (src.length_eq.trans dst.length_eq.symm)).trans dst.length_eq⟩

end CharArray
end Mvdcc.Library
