/-!
# The world that programs run in

What a program does to globals and to the heap goes through a `Runtime`, which is a parameter: nothing
depends on where a struct is allocated or on what is read. `Outside` is the world together with all that
was printed and read so far, and `Outcome` is how a function ends.
-/

namespace Spillway

/-- A machine word. -/
abbrev Word := BitVec 64

/-- A word in memory. -/
inductive Cell where
  | global (name : String)
  /-- Word `index` of the struct at `base`. -/
  | field (base : Word) (index : Nat)
  | address (a : Word)
  deriving DecidableEq, Repr

/-- What the world does when code asks it to. An operation that gives nothing stops the program. -/
structure Runtime (W : Type) where
  load : W → Cell → Option Word
  store : W → Cell → Word → Option W
  /-- Allocates a struct of so many words and returns its address. -/
  alloc : W → Nat → Option (Word × W)
  free : W → Word → Option W
  /-- The next number of the input. -/
  read : W → Option (Word × W)

/-- Something that is seen from outside. -/
inductive Event where
  | printed (value : Word) (newline : Bool)
  | entered (value : Word)
  deriving DecidableEq, Repr

/-- The world, with all that was printed and read so far. -/
@[ext] structure Outside (W : Type) where
  world : W
  trace : List Event

variable {W : Type}

namespace Outside

/-- Prints a number. -/
def print (o : Outside W) (value : Word) (newline : Bool) : Outside W :=
  { o with trace := o.trace ++ [.printed value newline] }

/-- Reads a number. -/
def read (rt : Runtime W) (o : Outside W) : Option (Word × Outside W) :=
  (rt.read o.world).map fun r => (r.1, ⟨r.2, o.trace ++ [.entered r.1]⟩)

/-- The value of a word in memory. -/
def load (rt : Runtime W) (o : Outside W) (c : Cell) : Option Word := rt.load o.world c

/-- Gives a word in memory a value. -/
def store (rt : Runtime W) (o : Outside W) (c : Cell) (value : Word) : Option (Outside W) :=
  (rt.store o.world c value).map fun w => { o with world := w }

/-- Allocates a struct. -/
def alloc (rt : Runtime W) (o : Outside W) (words : Nat) : Option (Word × Outside W) :=
  (rt.alloc o.world words).map fun r => (r.1, { o with world := r.2 })

/-- Gives a struct back. -/
def free (rt : Runtime W) (o : Outside W) (pointer : Word) : Option (Outside W) :=
  (rt.free o.world pointer).map fun w => { o with world := w }

end Outside

/-- What calls do: from the arguments and the world to the value returned, if there is one, and the
world afterwards. A call that does not end gives nothing. -/
abbrev Calls (W : Type) := String → List Word → Outside W → Option (Option Word × Outside W)

/-- How a function ends. -/
inductive Outcome where
  /-- It comes to the end of its code. -/
  | fell
  | returned (value : Option Word)
  deriving DecidableEq, Repr

/-- The value that a function returns. -/
def Outcome.value? : Outcome → Option Word
  | .fell => none
  | .returned value => value

end Spillway
