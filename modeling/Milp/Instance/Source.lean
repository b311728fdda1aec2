import Milp.Instance.Directory

/-!
# Sources of instances

A source picks files of a directory at random, one for each episode. It picks with replacement, or
goes through all files once, or through all of them again and again in passes. The files not yet
picked in a pass stand in front; a picked one is swapped behind them. A new seed starts over from
the sorted list, so what follows depends on the seed and the files alone.
-/

namespace Milp

/-- How a source picks files: any file every time, each file once, or each file once in every
pass. -/
inductive PickMode where
  | anew
  | once
  | passes
  deriving DecidableEq, Repr, Inhabited

/-- A source of instances. The first `remaining` files are not yet picked in the pass. -/
structure Source where
  files : Array InstancePath
  remaining : Nat
  mode : PickMode
  engine : Random.Engine

namespace Source

/-- Files in the order of their paths. -/
def sorted (files : List InstancePath) : Array InstancePath :=
  (files.mergeSort InstancePath.atMost).toArray

/-- A source of the given files that has picked none. -/
def ofFiles (files : List InstancePath) (mode : PickMode) (engine : Random.Engine) : Source where
  files := sorted files
  remaining := files.length
  mode
  engine

/-- The source of the files of a directory. -/
def ofDirectory (d : Directory) (recursive : Bool) (mode : PickMode) (engine : Random.Engine) :
    Except (InstanceError Float) Source := do
  pure (ofFiles (← d.paths recursive) mode engine)

variable (s : Source)

/-- The number of files. -/
def size : Nat := s.files.size

/-- Whether no file can be picked any more. -/
def isDone : Bool := s.files.isEmpty || (s.mode = .once && s.remaining = 0)

/-- The source as if it had picked nothing, with an engine of the given seed. -/
def reseed (seed : UInt64) : Source :=
  ofFiles s.files.toList s.mode (Random.Engine.ofSeed seed)

/-- The number of files that the next pick chooses from; behind the last file of a pass, all. -/
def choices : Nat := if s.remaining = 0 then s.files.size else s.remaining

/-- Picks a file. -/
def pick : Except (InstanceError Float) InstancePath × Source :=
  if s.isDone then (.error .exhausted, s)
  else
    let count := s.choices
    let (i, engine) := s.engine.below count
    let path := s.files.getD i []
    match s.mode with
    | .anew => (.ok path, { s with remaining := count, engine })
    | _ =>
      (.ok path,
        { s with
          files := s.files.swapIfInBounds i (count - 1)
          remaining := count - 1
          engine })

/-- Picks a file and reads the problem in it. A file that cannot be read counts as picked. -/
def next (d : Directory) : Attempt (InstanceError Float) (Problem Float) × Source :=
  match s.pick with
  | (.error e, s) => (Attempt.fail e, s)
  | (.ok path, s) =>
    ((d.problem path).mapError fun cause =>
      .loading (d.nameOf path) (.load cause), s)

end Source
end Milp
