import Gobstones.Check.Problem
import Gobstones.Program.Basic
/-!
# Stack depths

This module follows every path through a routine and records with how many values
on the operand stack each instruction is reached.  A path ends at a return, at an
error, at a call that always fails, and at an instruction that was reached before.

Main definitions:

- {lit}`Program.effect` and {lit}`Program.successors`: what an instruction does to the
  depth and where its paths go on.
- {lit}`DepthWalk`: the depths and the problems found so far.
- {lit}`Program.walkDepths`: the complete walk of a routine.
- {lit}`Program.depthProblems`: the problems of all routines of a program.
-/

namespace Gobstones

/-! ## Single instructions -/

namespace Program

/-- How many values an instruction pops, and how many it pushes then. -/
def effect (program : Program) : Instruction → Nat × Nat
  | .pushConst _ | .pushFrom _ => (0, 1)
  | .popTo _ | .jumpIfFalse _ | .jumpIfNotIn .. => (1, 0)
  | .call name argc => (argc, (program.resolve? name).elim 0 CallTarget.resultCount)
  | .ret n => (n, 0)
  | _ => (0, 0)

/-- Whether an instruction is a call that cannot succeed: of an unknown name, or with the
wrong number of arguments. -/
def alwaysFails (program : Program) : Instruction → Bool
  | .call name argc => (program.resolve? name).all (·.arity ≠ argc)
  | _ => false

/-- The positions where the paths through an instruction go on, the first to be followed
in front. -/
def successors (program : Program) (routine : Routine) (position : Nat)
    (instruction : Instruction) : List Nat :=
  if program.alwaysFails instruction then []
  else
    match instruction with
    | .ret _ | .returnVars .. | .raise _ => []
    | .jump _ => (routine.target? position).toList
    | .jumpIfFalse _ | .jumpIfNotIn .. => (routine.target? position).toList ++ [position + 1]
    | _ => [position + 1]

theorem length_successors_le (program : Program) (routine : Routine) (position : Nat)
    (instruction : Instruction) : (program.successors routine position instruction).length ≤ 2 := by
  unfold successors
  split
  · simp
  · split
    · simp
    · simp
    · simp
    · cases routine.target? position <;> simp
    · cases routine.target? position <;> simp
    · cases routine.target? position <;> simp
    · simp

end Program

/-- The problems of a return that is reached with a depth: a function has to leave as many
values as its first return says, and nothing may stay behind. -/
def Routine.returnProblems (routine : Routine) (position n depth : Nat) : List Problem :=
  let mixed :=
    match routine.kind, routine.firstReturn? with
    | .function, some first =>
      if first = n then [] else [.mixedReturnCounts routine.name position first n]
    | _, _ => []
  mixed ++ (if depth = n then [] else [.unbalancedReturn routine.name position n depth])

/-! ## The walk -/

/-- The depth at which each instruction was first reached, the positions where a second
depth was reported, the problems, latest first, and whether a path ran past the last
instruction. -/
structure DepthWalk where
  depths : Array (Option Nat)
  reported : List Nat
  problems : List Problem
  fallsOff : Bool

namespace DepthWalk

/-- The walk that has reached nothing yet. -/
def start (size : Nat) : DepthWalk :=
  { depths := Array.replicate size none, reported := [], problems := [], fallsOff := false }

/-- Note a problem. -/
def note (walk : DepthWalk) (problem : Problem) : DepthWalk :=
  { walk with problems := problem :: walk.problems }

/-- Reach an instruction again.  Only the first different depth is reported. -/
def revisit (walk : DepthWalk) (routine : String) (position seen depth : Nat) : DepthWalk :=
  if seen = depth ∨ position ∈ walk.reported then walk
  else
    { walk with
      reported := position :: walk.reported
      problems := .inconsistentDepth routine position seen depth :: walk.problems }

/-- Reach an instruction for the first time, and list where its paths go on with which
depths. -/
def visit (walk : DepthWalk) (program : Program) (routine : Routine) (position depth : Nat)
    (instruction : Instruction) : DepthWalk × List (Nat × Nat) :=
  let walk := { walk with depths := walk.depths.setIfInBounds position (some depth) }
  let (pops, pushes) := program.effect instruction
  if depth < pops then
    (walk.note (.stackUnderflow routine.name position depth pops), [])
  else
    let walk :=
      match instruction with
      | .ret n =>
        { walk with
          problems := (routine.returnProblems position n depth).reverse ++ walk.problems }
      | _ => walk
    (walk, (program.successors routine position instruction).map (·, depth - pops + pushes))

/-- The number of instructions that were not reached yet. -/
def unreached (walk : DepthWalk) : Nat :=
  walk.depths.countP Option.isNone

theorem unreached_revisit (walk : DepthWalk) (routine : String) (position seen depth : Nat) :
    (walk.revisit routine position seen depth).unreached = walk.unreached := by
  unfold revisit unreached
  split <;> rfl

theorem depths_visit (walk : DepthWalk) (program : Program) (routine : Routine)
    (position depth : Nat) (instruction : Instruction) :
    (walk.visit program routine position depth instruction).1.depths =
      walk.depths.setIfInBounds position (some depth) := by
  unfold visit
  simp only
  split
  · rfl
  · split <;> rfl

theorem length_visit_le (walk : DepthWalk) (program : Program) (routine : Routine)
    (position depth : Nat) (instruction : Instruction) :
    (walk.visit program routine position depth instruction).2.length ≤ 2 := by
  unfold visit
  simp only
  split
  · simp
  · simpa using program.length_successors_le routine position instruction

theorem unreached_visit_lt (walk : DepthWalk) (program : Program) (routine : Routine)
    (position depth : Nat) (instruction : Instruction)
    (h : walk.depths[position]? = some none) :
    (walk.visit program routine position depth instruction).1.unreached < walk.unreached := by
  obtain ⟨hlt, hget⟩ := Array.getElem?_eq_some_iff.1 h
  unfold unreached
  rw [depths_visit, Array.setIfInBounds, dif_pos hlt, Array.countP_set, hget]
  have hpos : 0 < walk.depths.countP Option.isNone :=
    Array.countP_pos_iff.2 ⟨none, hget ▸ Array.getElem_mem hlt, rfl⟩
  simp only [Option.isNone_none, if_true, Option.isNone_some, Bool.false_eq_true, if_false]
  omega

end DepthWalk

/-- Follow the paths that are still to be followed, each given by a position and the depth
there, until none is left. -/
def Program.followPaths (program : Program) (routine : Routine) (walk : DepthWalk) :
    List (Nat × Nat) → DepthWalk
  | [] => walk
  | (position, depth) :: paths =>
    match routine.code[position]?, _h : walk.depths[position]? with
    | some _, some (some seen) =>
      program.followPaths routine (walk.revisit routine.name position seen depth) paths
    | some instruction, some none =>
      let next := walk.visit program routine position depth instruction
      program.followPaths routine next.1 (next.2 ++ paths)
    | _, _ => program.followPaths routine { walk with fallsOff := true } paths
termination_by paths => 3 * walk.unreached + paths.length
decreasing_by
  · simp only [DepthWalk.unreached_revisit, List.length_cons]
    omega
  · have hlt := walk.unreached_visit_lt program routine position depth instruction _h
    have hle := walk.length_visit_le program routine position depth instruction
    simp only [List.length_append, List.length_cons]
    omega
  · simp only [DepthWalk.unreached, List.length_cons]
    omega

/-- The complete walk of a routine. -/
def Program.walkDepths (program : Program) (routine : Routine) : DepthWalk :=
  program.followPaths routine (DepthWalk.start routine.code.size) [(0, 0)]

/-- The problems with the stack depths of a routine, in the order of the walk. -/
def Program.depthProblemsOf (program : Program) (routine : Routine) : List Problem :=
  let walk := program.walkDepths routine
  walk.problems.reverse ++ (if walk.fallsOff then [.fallsOffEnd routine.name] else [])

/-- The problems with the stack depths of a program. -/
def Program.depthProblems (program : Program) : List Problem :=
  program.routines.flatMap program.depthProblemsOf

end Gobstones
