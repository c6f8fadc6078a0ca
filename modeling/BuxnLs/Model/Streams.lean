/-
  The streams of the assembler: `buxn_asm_fopen`, `buxn_asm_fgetc` and `buxn_asm_fclose` in any
  order between the steps of `Model/Machine.lean`. `char` is signed, so `fgetc` converts a byte
  to an `int` by way of -128 to 127.
-/
import BuxnLs.Model.Machine

namespace BuxnLs.Model

open BuxnLs.Lib

/-- `(int)ch` for a signed `char`. -/
def signedChar (ch : UInt8) : Int := if ch.toNat < 128 then ch.toNat else (ch.toNat : Int) - 256

/-- `buxn_asm_fgetc`; `-1` is `EOF`. -/
def asmFgetc (file : AsmFile) : AsmFile × Int :=
  match file.content[file.offset]? with
  | some ch => ({ file with offset := file.offset + 1 }, signedChar ch)
  | none => (file, -1)

/-- What a call of `buxn_asm_fopen` returned, and until when it may be used. `filename` and
    `reads`, the values that `buxn_asm_fgetc` has returned for it, are ghosts. -/
structure Stream where
  file : AsmFile
  isOpen : Bool
  filename : Str
  reads : List Int

/-- The machine and the streams of its run, by handle. `captured` is a ghost: the content that
    each file had at its first open of the run. -/
structure StreamMachine where
  machine : Machine
  streams : List Stream
  captured : Table Str Str

def StreamMachine.init : StreamMachine := ⟨.init, [], .empty⟩

inductive StreamLabel where
  | step (l : Label)
  | fgetc (handle : Nat)
  | fclose (handle : Nat)

/-- The content of a file that is open in the editor or on disk at this moment. -/
def contentNow (docs : Docs) (disk : Option Str) (filename : Str) : Option Str :=
  match docs.find? filename with
  | some content => some content
  | none => disk

/-- The ghost of an open: only the first one of a file captures. -/
def noteCapture (captured : Table Str Str) (docs : Docs) (disk : Option Str) (filename : Str) :
    Table Str Str :=
  match captured.find? filename, contentNow docs disk filename with
  | none, some content => captured.put filename content
  | _, _ => captured

/-- The streams after a step of the machine, which starts in `m`. -/
def streamsAfter (E : Env) (m : Machine) (s : StreamMachine) (m' : Machine) :
    Label → StreamMachine
  | .start _ => ⟨m', [], .empty⟩
  | .event (.fopen docs filename disk) =>
    let captured := noteCapture s.captured docs disk filename.chars
    match m.phase.passCtx with
    | none => ⟨m', s.streams, captured⟩
    | some ctx =>
      match (asmFopen E ⟨m.analyzer, ctx⟩ docs filename disk).2 with
      | none => ⟨m', s.streams, captured⟩
      | some file => ⟨m', s.streams ++ [⟨file, true, filename.chars, []⟩], captured⟩
  | _ => ⟨m', s.streams, s.captured⟩

/-- Read one value. -/
def Stream.fgetc (s : Stream) : Stream :=
  match asmFgetc s.file with
  | (file, value) => { s with file := file, reads := s.reads ++ [value] }

def streamStep (E : Env) (s : StreamMachine) : StreamLabel → Option StreamMachine
  | .step l => (Model.step E s.machine l).map fun m => streamsAfter E s.machine s m l
  | .fgetc handle =>
    match s.machine.phase.passCtx, s.streams[handle]? with
    | some _, some stream =>
      if stream.isOpen then some { s with streams := s.streams.set handle stream.fgetc } else none
    | _, _ => none
  | .fclose handle =>
    match s.machine.phase.passCtx, s.streams[handle]? with
    | some _, some stream =>
      if stream.isOpen then
        some { s with streams := s.streams.set handle { stream with isOpen := false } }
      else none
    | _, _ => none

end BuxnLs.Model
