/-
# Output sinks

A sink takes the bytes a program prints. It may have room for so many bytes only: then it takes
those that fit and fails, and has no room from then on. It may also refuse to be flushed.
-/

namespace Lox

/-- Where printed bytes go: what was taken and not yet handed on, the room left if it is limited,
and whether flushing fails. -/
structure Sink where
  written : ByteArray
  room : Option Nat
  refusesFlush : Bool

namespace Sink

/-- Why a sink fails. -/
inductive Error where
  | write
  | flush
deriving DecidableEq, Repr

/-- The text of the failure. -/
def Error.message : Error → String
  | .write => "write failed"
  | .flush => "flush failed"

/-- A sink that takes everything. -/
def unlimited : Sink := ⟨.empty, none, false⟩

/-- The sink after writing, and whether every byte was taken. -/
def write (s : Sink) (bytes : ByteArray) : Sink × Bool :=
  match s.room with
  | none => ({ s with written := s.written ++ bytes }, true)
  | some room =>
    if bytes.size ≤ room then
      ({ s with written := s.written ++ bytes, room := some (room - bytes.size) }, true)
    else ({ s with written := s.written ++ bytes.extract 0 room, room := some 0 }, false)

/-- Hands on what was taken. -/
def drain (s : Sink) : ByteArray × Sink := (s.written, { s with written := .empty })

end Sink

end Lox
