import Stencil.Text.Basic

/-!
Where a template's output goes. All sinks take the same texts; they differ in how they keep them and
in whether they can fail.
-/

namespace Stencil

/-- A value that an embedded expression writes, as the pieces in which it shows itself. -/
structure Value where
  pieces : List Text
  deriving DecidableEq, Repr

namespace Value

def display (v : Value) : Text := v.pieces.flatten

def text (t : Text) : Value := ⟨[t]⟩

def bool (b : Bool) : Value := text (if b then "true" else "false")

/-- A number in decimal. The sign is a piece of its own. -/
def int : Int → Value
  | .ofNat n => ⟨[Text.decimal n]⟩
  | .negSucc n => ⟨[['-'], Text.decimal (n + 1)]⟩

end Value

/-- A place for output with a state. What shows a value may be given apart from what takes literal
text; by default the one is done through the other. -/
structure Sink (σ : Type) where
  writeText : Text → σ → σ
  writeValue : Value → σ → σ := fun value => writeText value.display

inductive Write where
  | text (text : Text)
  | value (value : Value)
  deriving DecidableEq, Repr

def Write.display : Write → Text
  | .text t => t
  | .value v => v.display

namespace Sink

variable {σ : Type}

def apply (sink : Sink σ) : Write → σ → σ
  | .text t => sink.writeText t
  | .value v => sink.writeValue v

def run (sink : Sink σ) (writes : List Write) (s : σ) : σ :=
  writes.foldl (fun s w => sink.apply w s) s

/-- Keeps all output as one text. -/
def buffer : Sink Text where
  writeText t s := s ++ t
  writeValue v s := v.pieces.foldl (· ++ ·) s

/-- Keeps the pieces of the output apart. -/
def pieces : Sink (List Text) where
  writeText t s := s ++ [t]

end Sink

inductive DeviceError where
  | brokenPipe
  | writeZero
  | flushFailed
  deriving DecidableEq, Repr

def DeviceError.message : DeviceError → Text
  | .brokenPipe => "broken pipe"
  | .writeZero => "failed to write whole buffer"
  | .flushFailed => "flush failed"

/-- What a device is asked and what it answers: how many of some offered bytes it takes, or whether
a flush fails. -/
inductive DeviceRequest where
  | write (offered : List UInt8) (answer : Except DeviceError Nat)
  | flush (failure : Option DeviceError)
  deriving Repr

namespace DeviceRequest

def taken : DeviceRequest → List UInt8
  | .write offered (.ok count) => offered.take count
  | _ => []

/-- What goes wrong. Taking none of the bytes that are offered is a failure. -/
def failure? : DeviceRequest → Option DeviceError
  | .write _ (.ok 0) => some .writeZero
  | .write _ (.ok (_ + 1)) => none
  | .write _ (.error e) => some e
  | .flush failure => failure

def received (requests : List DeviceRequest) : List UInt8 := requests.flatMap taken

end DeviceRequest

/-- What a device was asked, in order, and its first failure. -/
structure DeviceState where
  requests : List DeviceRequest := []
  error : Option DeviceError := none
  deriving Repr

namespace DeviceState

def taken (s : DeviceState) : List UInt8 := DeviceRequest.received s.requests

def goOn (s : DeviceState) (next : List DeviceRequest → DeviceState) : DeviceState :=
  match s.error with
  | some _ => s
  | none => next s.requests

end DeviceState

/-- A device that takes a limited number of bytes in all and a limited portion of each offer, which
may depend on what it was asked before. It refuses everything once it is full, either with an error
or by taking nothing. -/
structure Device where
  limit : Option Nat
  portion : List DeviceRequest → Nat
  refusesWithError : Bool
  flushFails : Bool

namespace Device

/-- How many of the offered bytes a device takes, after some requests. -/
def accept (d : Device) (requests : List DeviceRequest) (offered : Nat) : Except DeviceError Nat :=
  let room := d.limit.map (· - (DeviceRequest.received requests).length)
  if room = some 0 then if d.refusesWithError then .error .brokenPipe else .ok 0
  else .ok (min (min offered (d.portion requests)) (room.getD offered))

/-- Offers bytes until all are taken, or there is a failure. -/
def writeAll (d : Device) (requests : List DeviceRequest) (bytes : List UInt8) : DeviceState :=
  if bytes.isEmpty then ⟨requests, none⟩
  else
    let answer := d.accept requests bytes.length
    let asked := requests ++ [.write bytes answer]
    match answer with
    | .error e => ⟨asked, some e⟩
    | .ok 0 => ⟨asked, some .writeZero⟩
    | .ok (n + 1) => writeAll d asked (bytes.drop (n + 1))
termination_by bytes.length
decreasing_by
  rename_i nonempty
  have := List.length_pos_iff.mpr (by simpa using nonempty)
  simp only [List.length_drop]
  omega

/-- Writes pieces of text one by one, up to the first failure. -/
def writePieces (d : Device) : List DeviceRequest → List Text → DeviceState
  | requests, [] => ⟨requests, none⟩
  | requests, piece :: rest =>
      (d.writeAll requests (Text.encode piece)).goOn fun requests => d.writePieces requests rest

end Device

/-- Streams output into a device. After a failure nothing more is asked of it. -/
def Sink.stream (d : Device) : Sink DeviceState where
  writeText t s := s.goOn fun requests => d.writeAll requests (Text.encode t)
  writeValue v s := s.goOn fun requests => d.writePieces requests v.pieces

namespace Device

/-- Ends a stream: flushes the device, unless a write has failed. -/
def close (d : Device) (s : DeviceState) : DeviceState :=
  s.goOn fun requests =>
    let failure := if d.flushFails then some .flushFailed else none
    ⟨requests ++ [.flush failure], failure⟩

def finish (d : Device) (s : DeviceState) : Option DeviceError := (d.close s).error

end Device

end Stencil
