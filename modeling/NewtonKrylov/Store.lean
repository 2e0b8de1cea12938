/-!
# The vector store

Vectors are mutable and shared: a program holds references, and two references to one vector see the
same contents. A store is the list of all vectors ever made, each with the name that was asked for,
so the names also are the record of the allocations. Vectors are never freed.
-/

namespace NewtonKrylov

structure Ref where
  index : Nat
deriving DecidableEq, Repr, Inhabited

structure Cell (V : Type) where
  name : String
  contents : V

/-- All vectors, in the order they were made. -/
structure Store (V : Type) where
  cells : Array (Cell V) := #[]

namespace Store

variable {V : Type}

def size (s : Store V) : Nat := s.cells.size

/-- The names asked for, in order. -/
def names (s : Store V) : List String := s.cells.toList.map Cell.name

def Valid (s : Store V) (r : Ref) : Prop := r.index < s.size

/-- The contents of a vector; `default` where there is none. -/
def read [Inhabited V] (s : Store V) (r : Ref) : V :=
  (s.cells[r.index]?).elim default Cell.contents

def write (s : Store V) (r : Ref) (v : V) : Store V :=
  ⟨s.cells.modify r.index fun c => ⟨c.name, v⟩⟩

def next (s : Store V) : Ref := ⟨s.size⟩

def push (s : Store V) (name : String) (v : V) : Store V := ⟨s.cells.push ⟨name, v⟩⟩

/-! ## Names and sizes after an operation -/

variable {s : Store V} {r r' : Ref} {v : V} {name : String}

@[simp] theorem size_write : (s.write r v).size = s.size := by simp [size, write]

@[simp] theorem size_push : (s.push name v).size = s.size + 1 := by simp [size, push]

theorem names_push : (s.push name v).names = s.names ++ [name] := by simp [names, push]

theorem names_write : (s.write r v).names = s.names := by
  simp only [names, write]
  apply List.ext_getElem?
  intro i
  simp only [List.getElem?_map, Array.getElem?_toList, Array.getElem?_modify]
  split
  · cases s.cells[i]? <;> rfl
  · rfl

/-! ## Reading after an operation -/

variable [Inhabited V]

theorem read_write_self (h : s.Valid r) : (s.write r v).read r = v := by
  have h' : r.index < s.cells.size := h
  simp only [read, write, Array.getElem?_modify, if_true, Array.getElem?_eq_getElem h']
  rfl

theorem read_write_of_ne (h : r ≠ r') : (s.write r v).read r' = s.read r' := by
  have h' : r.index ≠ r'.index := fun e => h (by cases r; cases r'; simp_all)
  simp [read, write, Array.getElem?_modify, h']

theorem read_push_next : (s.push name v).read s.next = v := by
  simp [read, push, next, size]

theorem read_push_of_valid (h : s.Valid r) : (s.push name v).read r = s.read r := by
  have h' : r.index < s.cells.size := h
  simp [read, push, Array.getElem?_push, Nat.ne_of_lt h']

end Store

end NewtonKrylov
