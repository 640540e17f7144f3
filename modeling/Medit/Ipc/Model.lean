import Medit.Library.Hex
import Medit.TextBtree.Model

/-!
# Messages between instances

`mooapp-ipc.cpp` and the reading of messages in `mooappinput-unix.cpp`. A message is written as a
header and data with a zero behind it, on every pipe of every other instance; a receiver drops
what it has had before.

## Main definitions

* `IpcData` — what an instance knows of messages.
* `IpcData.send` — `moo_ipc_send`.
* `IpcData.dispatchMessage` — `_moo_ipc_dispatch`.
* `Instance.readInput` — one byte of `read_input`.
-/

namespace Medit

open CString Function

/-- The id of an instance, as `generate_id` makes it. -/
structure AppId where
  bytes : List UInt8
  length : bytes.length = 8
  zero_notMem : 0 ∉ bytes
deriving DecidableEq

/-- A `ClientInfo`. -/
abbrev ClientInfo := ℕ

/-- A call of a registered callback. -/
structure ClientCall where
  client : ClientInfo
  id : List UInt8
  data : List UInt8
deriving DecidableEq

/-- `ipc_data`. There is an id once a client has been registered, and zero in `stampHash` is no
entry. -/
structure IpcData where
  appId : Option AppId
  stamp : ℕ
  stampHash : List UInt8 → ℕ
  clients : List UInt8 → List ClientInfo

/-- `VERSION_STRING` -/
def versionString : List UInt8 := ascii "0001".toList

/-- `MOO_APP_INPUT_IPC_MAGIC_CHAR` -/
def ipcMagicChar : UInt8 := 73

def maxIdLen : ℕ := 9999

/-- What `do_send` writes for a message with the number `stamp`. -/
def wire (app : AppId) (stamp : ℕ) (id data : List UInt8) : List UInt8 :=
  ipcMagicChar :: (versionString ++ app.bytes ++ hexPad 8 stamp ++ hexPad 4 id.length ++ id ++ data)

/-- Whether `strncmp` is zero, for strings without their zeros. -/
def strncmpEq (s t : List UInt8) (n : ℕ) : Bool := s.take n == t.take n

/-- `get_uint` -/
def getUint (data : List UInt8) (len : ℕ) : Option ℕ :=
  let string := (strndup data len).takeWhile (· ≠ 0)
  match strtoullHex string with
  | some (val, rest) => if rest = [] ∧ val < 2 ^ 32 then some val else none
  -- where there is no number, `end` is the start of the string
  | none => if string = [] then some 0 else none

namespace IpcData

/-- `moo_ipc_send`: what is written on a pipe, with a zero behind it. -/
def send (d : IpcData) (id data : List UInt8) : IpcData × Option (List UInt8) :=
  match d.appId with
  | none => (d, none)
  | some app =>
    if id.length ≠ 0 ∧ id.length < maxIdLen then
      let stamp := guint (d.stamp + 1)
      ({ d with stamp := stamp }, some (wire app stamp id data ++ [0]))
    else (d, none)

/-- `check_stamp`: nothing for a message that is not new. -/
def checkStamp (d : IpcData) (app : List UInt8) (stamp : ℕ) : Option IpcData :=
  if d.stampHash app ≠ 0 ∧ stamp ≤ d.stampHash app then none
  else some { d with stampHash := update d.stampHash app stamp }

/-- `dispatch` -/
def dispatch (d : IpcData) (id data : List UInt8) : List ClientCall :=
  (d.clients id).map (⟨·, id, data⟩)

/-- `_moo_ipc_dispatch` -/
def dispatchMessage (d : IpcData) (data : List UInt8) : IpcData × List ClientCall :=
  if data.length < 24 then (d, [])
  else
    match d.appId with
    | none => (d, [])
    | some self =>
      if !strncmpEq data versionString 4 then (d, [])
      else
        let data := data.drop 4
        if strncmpEq data self.bytes 8 then (d, [])
        else
          let app := (strndup data 8).takeWhile (· ≠ 0)
          let data := data.drop 8
          match getUint data 8 with
          | none => (d, [])
          | some stamp =>
            match d.checkStamp app stamp with
            | none => (d, [])
            | some d =>
              let data := data.drop 8
              match getUint data 4 with
              | none => (d, [])
              | some idLen =>
                let data := data.drop 4
                if data.length < idLen then (d, [])
                else
                  let id := (strndup data idLen).takeWhile (· ≠ 0)
                  (d, d.dispatch id (data.drop idLen))

end IpcData

/-! ## Reading -/

/-- A pipe with the buffer of its connection. -/
structure Pipe where
  unread : List UInt8
  buffer : List UInt8
deriving DecidableEq

/-- A receiver with its pipes and the calls it has made. -/
structure Instance (π : Type*) where
  ipc : IpcData
  calls : List ClientCall
  pipes : π → Pipe

namespace Instance

variable {π : Type*} [DecidableEq π]

/-- `_moo_app_input_channel_commit` with `exec_callback`: what other messages do is left out. -/
def commit (s : Instance π) (p : π) : Instance π :=
  match (s.pipes p).buffer with
  | [] => s
  | cmd :: data =>
    let s := { s with pipes := update s.pipes p ⟨(s.pipes p).unread, []⟩ }
    if cmd = ipcMagicChar then
      let (ipc, calls) := s.ipc.dispatchMessage data
      { s with ipc := ipc, calls := s.calls ++ calls }
    else s

/-- `read_input` up to the next byte of a pipe; it waits where there is none. -/
def readInput (s : Instance π) (p : π) : Instance π :=
  match (s.pipes p).unread with
  | [] => s
  | c :: rest =>
    if c = 0 then
      { s with pipes := update s.pipes p ⟨rest, (s.pipes p).buffer⟩ }.commit p
    else { s with pipes := update s.pipes p ⟨rest, (s.pipes p).buffer ++ [c]⟩ }

end Instance

end Medit
