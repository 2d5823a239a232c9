-- SUMMARY: Programs that read a clock, read and write files and print, as data; and what they do in a given world.
import CircuitEquiv.Interaction.FileSystem

/-!
# Interactions

An interaction is a program as a tree: it is done, or it asks for one thing and goes on with the
answer. What a program does can then be said for all answers. Time is counted in nanoseconds. A
`World` answers from a clock that moves on by a fixed step with every reading, and from a file system
held in memory.
-/

namespace CircuitEquiv

/-- A program that ends with a result. -/
inductive Interaction (α : Type) where
  | done (result : α)
  /-- Reads the clock, which never goes back. -/
  | readClock (next : Nat → Interaction α)
  /-- Reads a file, if it can be read. -/
  | readFile (path : String) (next : Option (List UInt8) → Interaction α)
  /-- Creates or replaces a file, and learns whether that worked. -/
  | writeFile (path content : String) (next : Bool → Interaction α)
  /-- Creates a directory and the ones above it, and learns whether that worked. -/
  | makeDirectory (path : String) (next : Bool → Interaction α)
  /-- Prints a text. -/
  | print (text : String) (next : Interaction α)

namespace Interaction

/-- First `x`, then `f` of its result. -/
protected def bind {α β : Type} (x : Interaction α) (f : α → Interaction β) : Interaction β :=
  match x with
  | .done a => f a
  | .readClock next => .readClock fun t => (next t).bind f
  | .readFile path next => .readFile path fun content => (next content).bind f
  | .writeFile path content next => .writeFile path content fun ok => (next ok).bind f
  | .makeDirectory path next => .makeDirectory path fun ok => (next ok).bind f
  | .print text next => .print text (next.bind f)

instance : Monad Interaction where
  pure := .done
  bind := Interaction.bind

@[simp]
theorem done_bind {α β : Type} (a : α) (f : α → Interaction β) : (done a).bind f = f a := rfl

theorem bind_done {α : Type} (x : Interaction α) : x.bind .done = x := by
  induction x with
  | done => rfl
  | readClock next ih => exact congrArg Interaction.readClock (funext ih)
  | readFile path next ih => exact congrArg (Interaction.readFile path) (funext ih)
  | writeFile path content next ih => exact congrArg (Interaction.writeFile path content) (funext ih)
  | makeDirectory path next ih => exact congrArg (Interaction.makeDirectory path) (funext ih)
  | print text next ih => exact congrArg (Interaction.print text) ih

theorem bind_assoc {α β γ : Type} (x : Interaction α) (f : α → Interaction β)
    (g : β → Interaction γ) : (x.bind f).bind g = x.bind fun a => (f a).bind g := by
  induction x with
  | done => rfl
  | readClock next ih => exact congrArg Interaction.readClock (funext ih)
  | readFile path next ih => exact congrArg (Interaction.readFile path) (funext ih)
  | writeFile path content next ih => exact congrArg (Interaction.writeFile path content) (funext ih)
  | makeDirectory path next ih => exact congrArg (Interaction.makeDirectory path) (funext ih)
  | print text next ih => exact congrArg (Interaction.print text) ih

instance : LawfulMonad Interaction :=
  LawfulMonad.mk' Interaction bind_done (fun _ _ => rfl) bind_assoc

/-- The time. -/
def clock : Interaction Nat := .readClock .done

/-- The content of a file, if it can be read. -/
def read (path : String) : Interaction (Option (List UInt8)) := .readFile path .done

/-- Creates or replaces a file. -/
def write (path content : String) : Interaction Bool := .writeFile path content .done

/-- Creates a directory and the ones above it. -/
def createDirectory (path : String) : Interaction Bool := .makeDirectory path .done

/-- Prints a text. -/
def say (text : String) : Interaction Unit := .print text (.done ())

/-! ## Worlds -/

/-- What an interaction can see and change. -/
structure World where
  now : Nat
  /-- The time that passes between two readings of the clock. -/
  tick : Nat
  files : FileSystem
  printed : String

namespace World

/-- A world in which the clock moves on by a microsecond with every reading and the working directory
holds the given files. -/
def ofFiles (files : List (String × List UInt8)) : World := ⟨0, 1000, .ofFiles files, ""⟩

/-- Creates or replaces a file. -/
def write? (w : World) (path content : String) : Option World :=
  (w.files.write? path content).map fun (files, printed) =>
    { w with files, printed := w.printed ++ printed }

/-- Creates a directory and the ones above it. -/
def makeDirectory? (w : World) (path : String) : Option World :=
  (w.files.makeDirectory? path).map fun files => { w with files }

end World

/-- The result of an interaction in a world, and the world afterwards. -/
def run {α : Type} : Interaction α → World → α × World
  | .done a, w => (a, w)
  | .readClock next, w => (next w.now).run { w with now := w.now + w.tick }
  | .readFile path next, w => (next (w.files.read? path)).run w
  | .writeFile path content next, w =>
    match w.write? path content with
    | some w => (next true).run w
    | none => (next false).run w
  | .makeDirectory path next, w =>
    match w.makeDirectory? path with
    | some w => (next true).run w
    | none => (next false).run w
  | .print text next, w => next.run { w with printed := w.printed ++ text }

end Interaction

end CircuitEquiv
