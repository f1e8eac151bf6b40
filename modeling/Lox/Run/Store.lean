import Lox.Run.Fault
import Lox.Run.Value

/-! The variables of a running program, in frames. A frame holds the variables of one block or call;
an environment lists the frames in which a name is looked up, and shares them with every function
that was declared inside them. -/

namespace Lox

/-- The variables of one scope in the order of their definition. -/
abbrev Frame := List (Name × Value)

namespace Frame

/-- Changes the value of a variable, or adds the variable at the end. -/
def set (x : Name) (v : Value) : Frame → Frame
  | [] => [(x, v)]
  | (y, w) :: rest => if y = x then (y, v) :: rest else (y, w) :: set x v rest

def names (f : Frame) : List Name := f.map (·.1)

theorem lookup_cons (x y : Name) (v : Value) (f : Frame) :
    List.lookup x ((y, v) :: f) = if x = y then some v else f.lookup x := by
  by_cases h : x = y
  · simp [h]
  · have : (x == y) = false := by simpa using h
    simp [List.lookup_cons, this, h]

theorem lookup_set (x y : Name) (v : Value) (f : Frame) :
    (set x v f).lookup y = if y = x then some v else f.lookup y := by
  induction f with
  | nil => rw [set, lookup_cons]
  | cons p rest ih =>
    obtain ⟨z, w⟩ := p
    by_cases hz : z = x
    · subst hz
      by_cases h : y = z <;> simp [set, h, lookup_cons]
    · by_cases h : y = z
      · subst h
        simp [set, hz]
      · simp [set, hz, lookup_cons, h, ih]

/-- A variable keeps the place of its first definition. -/
theorem names_set (x : Name) (v : Value) (f : Frame) :
    (set x v f).names = if x ∈ f.names then f.names else f.names ++ [x] := by
  induction f with
  | nil => simp [set, names]
  | cons p rest ih =>
    obtain ⟨z, w⟩ := p
    by_cases hz : z = x
    · simp [set, names, hz]
    · simp only [set, hz, if_false]
      simp only [names, List.map_cons, List.mem_cons, List.cons_append] at ih ⊢
      rw [ih]
      by_cases h : x ∈ rest.map (·.1)
      · simp [h]
      · simp [h, Ne.symm hz]

end Frame

structure Store where
  frames : Array Frame

namespace Store

def empty : Store := ⟨#[]⟩

def frame (s : Store) (i : Nat) : Frame := s.frames.getD i []

def child (s : Store) (env : Environment) : Environment × Store :=
  (s.frames.size :: env, ⟨s.frames.push []⟩)

def setIn (s : Store) (i : Nat) (x : Name) (v : Value) : Store :=
  ⟨s.frames.modify i (Frame.set x v)⟩

/-- Defines a variable in the innermost frame, or overwrites it there. -/
def define (s : Store) (env : Environment) (x : Name) (v : Value) : Store :=
  match env with
  | [] => s
  | i :: _ => s.setIn i x v

def defineNatives (s : Store) (env : Environment) (natives : List Native) : Store :=
  natives.foldl (fun s f => s.define env f.name (.native f)) s

/-- An environment with nothing around it that holds the given native functions. -/
def root (s : Store) (natives : List Native) : Environment × Store :=
  let (env, s) := s.child []
  (env, s.defineNatives env natives)

/-- The variables of the innermost frame, in the order of their definition. -/
def names (s : Store) : Environment → List Name
  | [] => []
  | i :: _ => (s.frame i).names

def binds (s : Store) (i : Nat) (x : Name) : Bool := ((s.frame i).lookup x).isSome

def holder? (s : Store) (x : Name) : Environment → Option Nat
  | [] => none
  | i :: outer => if s.binds i x then some i else s.holder? x outer

/-- The frame exactly so many steps out, if it has the variable. -/
def holderAt? (s : Store) (x : Name) (env : Environment) (distance : Nat) : Option Nat :=
  match env.drop distance with
  | [] => none
  | i :: _ => if s.binds i x then some i else none

def get? (s : Store) (env : Environment) (x : Name) : Option Value :=
  (s.holder? x env).bind fun i => (s.frame i).lookup x

def getAt? (s : Store) (env : Environment) (distance : Nat) (x : Name) : Option Value :=
  (s.holderAt? x env distance).bind fun i => (s.frame i).lookup x

/-- Changes the nearest variable of a name; no variable is ever added. -/
def assign? (s : Store) (env : Environment) (x : Name) (v : Value) : Option Store :=
  (s.holder? x env).map fun i => s.setIn i x v

def assignAt? (s : Store) (env : Environment) (distance : Nat) (x : Name) (v : Value) :
    Option Store :=
  (s.holderAt? x env distance).map fun i => s.setIn i x v

def get (s : Store) (env : Environment) (x : Name) (location : Option Location) :
    Except RuntimeError Value :=
  RuntimeError.orUndefined x location (s.get? env x)

def getAt (s : Store) (env : Environment) (distance : Nat) (x : Name)
    (location : Option Location) : Except RuntimeError Value :=
  RuntimeError.orUndefined x location (s.getAt? env distance x)

def assign (s : Store) (env : Environment) (x : Name) (v : Value) (location : Option Location) :
    Except RuntimeError Store :=
  RuntimeError.orUndefined x location (s.assign? env x v)

def assignAt (s : Store) (env : Environment) (distance : Nat) (x : Name) (v : Value)
    (location : Option Location) : Except RuntimeError Store :=
  RuntimeError.orUndefined x location (s.assignAt? env distance x v)

theorem frame_setIn (s : Store) (i j : Nat) (x : Name) (v : Value) (h : i < s.frames.size) :
    (s.setIn i x v).frame j = if j = i then Frame.set x v (s.frame i) else s.frame j := by
  by_cases hj : j = i
  · subst hj
    simp [setIn, frame, Array.getD, h, Array.getElem_modify]
  · simp [setIn, frame, Array.getD_eq_getD_getElem?, Array.getElem?_modify, hj, Ne.symm hj]

@[simp] theorem size_setIn (s : Store) (i : Nat) (x : Name) (v : Value) :
    (s.setIn i x v).frames.size = s.frames.size := by
  simp [setIn]

@[simp] theorem size_child (s : Store) (env : Environment) :
    (s.child env).2.frames.size = s.frames.size + 1 := by
  simp [child]

/-- The new frame is empty, and the others stay as they are. -/
@[simp] theorem frame_child (s : Store) (env : Environment) (j : Nat) :
    (s.child env).2.frame j = s.frame j := by
  simp only [child, frame, Array.getD_eq_getD_getElem?, Array.getElem?_push]
  split
  · rename_i h
    simp [h]
  · rfl

end Store

end Lox
