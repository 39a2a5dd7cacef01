import Spkdfs.Library.Files
import Spkdfs.Library.Runs
import Spkdfs.Client.Streaming

namespace Spkdfs

open Library Function

def nul : Char := Char.ofNat 0

/-- A `put` of the datanode: the chunks still in flight, the `StreamReceiver` behind them and, once
the stream is closed, how much its lambda has written of the file `blk_<blkid>`. -/
structure Receiver where
  blkid : Str
  messages : List Str
  ss : Str := []
  written : Option Nat := none
  finished : Bool := false
deriving DecidableEq

/-- Where the lambda of a `StreamSender` stands. A chunk that was read stays in the buffer until
the stream takes it. -/
inductive Sending
  | accepted
  | reading (position : Nat)
  | writing (position : Nat) (buffer : Str)
  | closed
deriving DecidableEq

/-- A `get` of the datanode: the `StreamSender`, the chunks in flight and what the `StreamReceiver`
of `get_from_datanode` has collected at the other end. -/
structure Sender where
  blkid : Str
  sending : Sending := .accepted
  messages : List Str := []
  ss : Str := []
  result : Option (Except Fault Str) := none

/-- The data directory of one datanode and the streams of all its clients. -/
structure Datanode where
  files : Str → Option Str
  puts : List Receiver := []
  gets : List Sender := []

namespace Receiver

/-- `on_received_messages`, with as many messages as brpc hands over at once. -/
def receive (r : Receiver) (size : Nat) : Option Receiver :=
  if r.written = none ∧ 0 < size ∧ size ≤ r.messages.length then
    some { r with ss := r.ss ++ (r.messages.take size).flatten, messages := r.messages.drop size }
  else none

/-- The connection is lost, and with it what is in flight. -/
def cut (r : Receiver) : Option Receiver :=
  if r.written = none then some { r with messages := [] } else none

/-- `on_closed`. Opening the file truncates it; the lambda returns where that fails. -/
def onClosed (r : Receiver) (opened : Bool) : Option Receiver :=
  if r.written = none ∧ r.finished = false ∧ r.messages = [] then
    some (if opened then { r with written := some 0 } else { r with finished := true })
  else none

/-- Some more bytes of `file << data` arrive in the file. -/
def write (r : Receiver) (size : Nat) : Option (Receiver × Nat × Str) :=
  match r.written with
  | none => none
  | some position =>
    if r.finished = false ∧ 0 < size ∧ position + size ≤ r.ss.length then
      some ({ r with written := some (position + size) }, position, slice r.ss position size)
    else none

/-- The lambda closes the file, also where not everything could be written. -/
def finish (r : Receiver) : Option Receiver :=
  if r.written ≠ none ∧ r.finished = false then some { r with finished := true } else none

end Receiver

namespace Sender

/-- The lambda begins with the message that the client sends first. A file that is missing or
empty is not read. -/
def start (g : Sender) (file : Option Str) : Option Sender :=
  if g.sending = .accepted then
    some { g with sending := if file.getD [] = [] then .closed else .reading 0 }
  else none

/-- The condition of the loop: `file.read` and `gcount`. -/
def read (g : Sender) (file : Option Str) : Option Sender :=
  match g.sending with
  | .reading position =>
    let buffer := slice (file.getD []) position brpcStreamChunkSize
    some { g with
      sending := if buffer = [] then .closed else .writing (position + buffer.length) buffer }
  | _ => none

/-- One `StreamWrite` of the chunk in the buffer. After a short read the stream of the file is at
its end. -/
def send (g : Sender) (status : Nat) : Option Sender :=
  match g.sending with
  | .writing position buffer =>
    if status = 0 then
      some { g with
        messages := g.messages ++ [buffer]
        sending := if buffer.length < brpcStreamChunkSize then .closed else .reading position }
    else if status = eagain then some g
    else some { g with sending := .closed }
  | _ => none

def receive (g : Sender) (size : Nat) : Option Sender :=
  if 0 < size ∧ size ≤ g.messages.length then
    some { g with ss := g.ss ++ (g.messages.take size).flatten, messages := g.messages.drop size }
  else none

def cut (g : Sender) : Option Sender := some { g with messages := [], sending := .closed }

/-- The stream is closed at the client, and `get_from_datanode` checks what has arrived. -/
def answer (sha256sum : Str → Str) (g : Sender) : Option Sender :=
  if g.sending = .closed ∧ g.messages = [] ∧ g.result = none then
    some { g with result := some (getFromDatanode sha256sum (fun _ _ ↦ .ok g.ss) [] g.blkid) }
  else none

end Sender

namespace Datanode

def start (files : Str → Option Str) : Datanode := { files }

inductive Step
  /-- A call of `put_to_datanode` with what brpc answers in the course of it. -/
  | put (block : Str) (stream : PutStream)
  /-- A `put` that the datanode accepts, but the client does not learn of it and sends nothing. -/
  | unanswered (block : Str)
  | receive (i size : Nat)
  | cut (i : Nat)
  | onClosed (i : Nat) (opened : Bool)
  | write (i size : Nat)
  | finish (i : Nat)
  | get (blkid : Str)
  | startSender (j : Nat)
  | read (j : Nat)
  | send (j status : Nat)
  | receiveBack (j size : Nat)
  | cutBack (j : Nat)
  | answer (j : Nat)

def reaches (stream : PutStream) : Bool := stream.created && stream.put.isOk

def withPut (s : Datanode) (i : Nat) (act : Receiver → Option Receiver) : Option Datanode :=
  s.puts[i]?.bind fun r ↦ (act r).map fun r' ↦ { s with puts := s.puts.set i r' }

def withGet (s : Datanode) (j : Nat) (act : Sender → Option Sender) : Option Datanode :=
  s.gets[j]?.bind fun g ↦ (act g).map fun g' ↦ { s with gets := s.gets.set j g' }

def step (sha256sum : Str → Str) (s : Datanode) : Step → Option Datanode
  | .put block stream =>
    (putToDatanode sha256sum stream block).map fun r ↦
      if reaches stream then
        { s with puts := s.puts ++ [{ blkid := sha256sum block, messages := accepted r.2 }] }
      else s
  | .unanswered block =>
    some { s with puts := s.puts ++ [{ blkid := sha256sum block, messages := [] }] }
  | .receive i size => s.withPut i (·.receive size)
  | .cut i => s.withPut i (·.cut)
  | .onClosed i opened =>
    s.puts[i]?.bind fun r ↦ (r.onClosed opened).map fun r' ↦
      { s with
        files := if opened then update s.files r.blkid (some []) else s.files
        puts := s.puts.set i r' }
  | .write i size =>
    s.puts[i]?.bind fun r ↦ (r.write size).map fun w ↦
      { s with
        files := update s.files r.blkid
          (some (writeAt nul ((s.files r.blkid).getD []) w.2.1 w.2.2))
        puts := s.puts.set i w.1 }
  | .finish i => s.withPut i (·.finish)
  | .get blkid => some { s with gets := s.gets ++ [{ blkid }] }
  | .startSender j => s.withGet j fun g ↦ g.start (s.files g.blkid)
  | .read j => s.withGet j fun g ↦ g.read (s.files g.blkid)
  | .send j status => s.withGet j (·.send status)
  | .receiveBack j size => s.withGet j (·.receive size)
  | .cutBack j => s.withGet j (·.cut)
  | .answer j => s.withGet j (·.answer sha256sum)

end Datanode

end Spkdfs
