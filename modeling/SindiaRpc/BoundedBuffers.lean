import Mathlib.Data.List.Basic

/-!
# Fixed-size buffers with bounds

A buffer of `n` cells carries the proof that it has `n` cells. Reads and writes
name a range; `load` and `store` have no result where the range leaves the
buffer, which is where a raw copy would touch foreign memory. `overwrite` is the
write whose range is known to fit.
-/
namespace SindiaRpc

structure Buffer (α : Type*) (n : ℕ) where
  cells : List α
  length_cells : cells.length = n
  deriving DecidableEq

namespace Buffer
variable {α : Type*} {n : ℕ}

attribute [simp] length_cells

@[ext] theorem ext {b c : Buffer α n} (h : b.cells = c.cells) : b = c := by
  cases b
  cases c
  simpa using h

def fill (n : ℕ) (a : α) : Buffer α n := ⟨List.replicate n a,by simp⟩

/-- The range `[off, off + len)` of a buffer of `n` cells. -/
def InRange (n off len : ℕ) : Prop := off + len ≤ n

instance (n off len : ℕ) : Decidable (InRange n off len) := inferInstanceAs (Decidable (_ ≤ _))

def slice (b : Buffer α n) (off len : ℕ) : List α := (b.cells.drop off).take len

def load (b : Buffer α n) (off len : ℕ) : Option (List α) :=
  if InRange n off len then some (b.slice off len) else none

def overwrite (b : Buffer α n) (off : ℕ) (src : List α) (h : InRange n off src.length) :
    Buffer α n :=
  ⟨b.cells.take off ++ (src ++ b.cells.drop (off + src.length)),by
    have hb := b.length_cells
    unfold InRange at h
    simp only [List.length_append,List.length_take,List.length_drop]
    omega⟩

def store (b : Buffer α n) (off : ℕ) (src : List α) : Option (Buffer α n) :=
  if h : InRange n off src.length then some (b.overwrite off src h) else none

theorem load_eq_some {b : Buffer α n} {off len : ℕ} {bs : List α} :
    b.load off len = some bs ↔ InRange n off len ∧ b.slice off len = bs := by
  unfold load
  split_ifs with h <;> simp [h]

theorem store_eq_some {b c : Buffer α n} {off : ℕ} {src : List α} :
    b.store off src = some c ↔ ∃ h : InRange n off src.length, b.overwrite off src h = c := by
  unfold store
  split_ifs with h <;> simp [h]

theorem store_eq_none {b : Buffer α n} {off : ℕ} {src : List α} :
    b.store off src = none ↔ ¬ InRange n off src.length := by
  unfold store
  split_ifs with h <;> simp [h]

theorem length_slice {b : Buffer α n} {off len : ℕ} (h : InRange n off len) :
    (b.slice off len).length = len := by
  have hb := b.length_cells
  unfold InRange at h
  simp only [slice,List.length_take,List.length_drop]
  omega

theorem slice_add (b : Buffer α n) (off k l : ℕ) :
    b.slice off (k + l) = b.slice off k ++ b.slice (off + k) l := by
  simp only [slice,List.take_add,List.drop_drop]

theorem length_before (b : Buffer α n) {off len : ℕ} (h : InRange n off len) :
    (b.cells.take off).length = off := by
  have hb := b.length_cells
  unfold InRange at h
  rw [List.length_take]
  omega

/-- What was written is what is read back. -/
@[simp] theorem slice_overwrite_same (b : Buffer α n) (off : ℕ) (src : List α)
    (h : InRange n off src.length) :
    (b.overwrite off src h).slice off src.length = src := by
  have hlen := b.length_before h
  simp only [slice,overwrite]
  rw [List.drop_append_of_le_length (by omega),List.drop_of_length_le (by omega),List.nil_append,
    List.take_append_of_le_length (Nat.le_refl _),List.take_length]

theorem slice_overwrite_before (b : Buffer α n) {off i k : ℕ} (src : List α)
    (h : InRange n off src.length) (hi : i + k ≤ off) :
    (b.overwrite off src h).slice i k = b.slice i k := by
  have hlen := b.length_before h
  simp only [slice,overwrite]
  rw [List.drop_append_of_le_length (by omega),List.take_append_of_le_length (by
    rw [List.length_drop]
    omega),List.drop_take,List.take_take,Nat.min_eq_left (by omega)]

theorem slice_overwrite_after (b : Buffer α n) {off i k : ℕ} (src : List α)
    (h : InRange n off src.length) (hi : off + src.length ≤ i) :
    (b.overwrite off src h).slice i k = b.slice i k := by
  have hlen := b.length_before h
  simp only [slice,overwrite]
  rw [← List.append_assoc,List.drop_append,List.drop_of_length_le (by
    rw [List.length_append]
    omega),List.nil_append,List.drop_drop]
  congr 2
  rw [List.length_append]
  omega

end Buffer
end SindiaRpc
