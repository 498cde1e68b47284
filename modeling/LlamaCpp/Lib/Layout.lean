import LlamaCpp.Lib.Bytes

/-!
# Packed records

A layout writes the values of a type with a fixed number of bytes and reads them back, whatever
follows them.  Layouts are put together like the fields of a packed record.
-/

set_option autoImplicit false

namespace LlamaCpp.Lib

open List

structure Layout (α : Type) where
  size : Nat
  write : α → Bytes
  read : Bytes → α
  length_write : ∀ value, (write value).length = size
  read_write : ∀ value rest, read (write value ++ rest) = value

namespace Layout

variable {α β : Type}

def byte : Layout UInt8 where
  size := 1
  write value := [value]
  read bytes := bytes.headD 0
  length_write _ := rfl
  read_write _ _ := rfl

def word (width bits : Nat) (whole : bits = 8 * width) : Layout (BitVec bits) where
  size := width
  write value := leBytes width value.toNat
  read bytes := BitVec.ofNat bits (ofLeBytes (bytes.take width))
  length_write value := length_leBytes width value.toNat
  read_write value rest := by
    have here : (leBytes width value.toNat ++ rest).take width = leBytes width value.toNat :=
      take_left' (length_leBytes width value.toNat)
    rw [here]
    exact bitVec_ofLeBytes whole value

def u32 : Layout (BitVec 32) := word 4 32 rfl

def u64 : Layout (BitVec 64) := word 8 64 rfl

def pair (first : Layout α) (second : Layout β) : Layout (α × β) where
  size := first.size + second.size
  write value := first.write value.1 ++ second.write value.2
  read bytes := (first.read bytes, second.read (bytes.drop first.size))
  length_write value := by rw [length_append, first.length_write, second.length_write]
  read_write value rest := by
    rw [append_assoc, first.read_write, ← first.length_write value.1, drop_left,
      second.read_write]

def equiv (layout : Layout α) (build : α → β) (fields : β → α)
    (build_fields : ∀ value, build (fields value) = value) : Layout β where
  size := layout.size
  write value := layout.write (fields value)
  read bytes := build (layout.read bytes)
  length_write value := layout.length_write (fields value)
  read_write value rest := by rw [layout.read_write, build_fields]

def writeMany (layout : Layout α) (values : List α) : Bytes := values.flatMap layout.write

def readMany (layout : Layout α) : Nat → Bytes → List α
  | 0, _ => []
  | count + 1, bytes => layout.read bytes :: layout.readMany count (bytes.drop layout.size)

theorem length_writeMany (layout : Layout α) (values : List α) :
    (layout.writeMany values).length = values.length * layout.size := by
  rw [writeMany, length_flatMap]
  induction values with
  | nil => exact (Nat.zero_mul _).symm
  | cons value rest ih =>
    rw [map_cons, sum_cons, ih, layout.length_write, length_cons, Nat.succ_mul,
      Nat.add_comm]

theorem readMany_writeMany (layout : Layout α) (values : List α) (rest : Bytes) :
    layout.readMany values.length (layout.writeMany values ++ rest) = values := by
  induction values with
  | nil => rfl
  | cons value others ih =>
    have split : layout.writeMany (value :: others) ++ rest =
        layout.write value ++ (layout.writeMany others ++ rest) := by
      rw [writeMany, flatMap_cons, append_assoc, writeMany]
    rw [length_cons, readMany, split, layout.read_write, ← layout.length_write value,
      drop_left, ih]

def array [Inhabited α] (count : Nat) (layout : Layout α) : Layout (Fin count → α) where
  size := count * layout.size
  write values := layout.writeMany (List.ofFn values)
  read bytes i := (layout.readMany count bytes).getD i default
  length_write values := by rw [length_writeMany, length_ofFn]
  read_write values rest := by
    funext i
    have all := layout.readMany_writeMany (List.ofFn values) rest
    rw [length_ofFn] at all
    rw [all, getD_eq_getElem?_getD, List.getElem?_ofFn, dif_pos i.isLt]
    rfl

end Layout

end LlamaCpp.Lib
