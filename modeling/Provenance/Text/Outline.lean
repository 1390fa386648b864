/-!
# Indented text

An outline grows line by line, each line indented by three blanks for every
level that is open. A log is an outline that may be switched off, and then
stays empty whatever happens.
-/

namespace Provenance

structure Outline where
  depth : Nat
  text : String
  deriving DecidableEq, Repr, Inhabited

namespace Outline

def empty : Outline :=
  ⟨0, ""⟩

def line (o : Outline) (s : String) : Outline :=
  { o with text := (List.replicate o.depth "   ").foldl (· ++ ·) o.text ++ s ++ "\n" }

def indent (o : Outline) : Outline :=
  { o with depth := o.depth + 1 }

/-- Closing a level when none is open changes nothing. -/
def unindent (o : Outline) : Outline :=
  { o with depth := o.depth - 1 }

def ofLines (lines : List (Nat × String)) : String :=
  (lines.foldl (fun o l => ({ o with depth := l.1 }).line l.2) empty).text

end Outline

structure Log where
  enabled : Bool
  outline : Outline
  deriving DecidableEq, Repr, Inhabited

namespace Log

def new (enabled : Bool) : Log :=
  ⟨enabled, .empty⟩

/-- The line is made only if it is kept. -/
def step (l : Log) (line : Unit → String) : Log :=
  if l.enabled then { l with outline := l.outline.line (line ()) } else l

def enter (l : Log) : Log :=
  if l.enabled then { l with outline := l.outline.indent } else l

def leave (l : Log) : Log :=
  if l.enabled then { l with outline := l.outline.unindent } else l

def text (l : Log) : String :=
  l.outline.text

@[simp] theorem enabled_step (l : Log) (line : Unit → String) :
    (l.step line).enabled = l.enabled := by
  unfold step; split <;> rfl

@[simp] theorem enabled_enter (l : Log) : l.enter.enabled = l.enabled := by
  unfold enter; split <;> rfl

@[simp] theorem enabled_leave (l : Log) : l.leave.enabled = l.enabled := by
  unfold leave; split <;> rfl

end Log

end Provenance
