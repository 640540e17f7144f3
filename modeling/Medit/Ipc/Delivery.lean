import Medit.Ipc.Model
import Medit.Library.Channels
import Medit.Library.Framing

/-!
# Delivery of messages

One instance writes its messages on every pipe; the instances read their pipes byte by byte, in any
order. Of a message that comes on several pipes the first copy is taken, and the stamps of the
others are not new.

## Main definitions

* `Network` — the instances, one of which sends.
* `Network.run` — messages and bytes one after another.
* `Pipe.Carries` — the messages still to come on a pipe.
* `Instance.Hears` — what a receiver has taken.

## Main results

* `IpcData.dispatchMessage_wire` — a message is taken apart as it was put together.
* `Network.delivered_once` — every message is handed over once, in order.
-/

namespace Medit

open CString Function Channels List

/-- What `moo_ipc_send` is called with. -/
structure IpcMessage where
  id : List UInt8
  data : List UInt8
deriving DecidableEq

/-- The instances, by their names. -/
abbrev Network (ρ π : Type*) := ρ → Instance π

/-- The sender sends a message, or an instance reads a byte of one of its pipes. -/
inductive NetworkEvent (ρ π : Type*)
  | send (m : IpcMessage)
  | read (r : ρ) (p : π)

/-- A pipe on which `bytes` have been written. -/
def Pipe.write (q : Pipe) (bytes : List UInt8) : Pipe := { q with unread := q.unread ++ bytes }

namespace Network

variable {ρ π : Type*} [DecidableEq ρ] [DecidableEq π]

/-- `moo_ipc_send` with `_moo_app_input_broadcast`; the sender writes on its own pipes too. -/
def send (net : Network ρ π) (sender : ρ) (m : IpcMessage) : Network ρ π :=
  let (ipc, bytes) := (net sender).ipc.send m.id m.data
  fun r =>
    { net r with
      ipc := if r = sender then ipc else (net r).ipc
      pipes := fun p => ((net r).pipes p).write (bytes.getD []) }

def step (sender : ρ) (net : Network ρ π) : NetworkEvent ρ π → Network ρ π
  | .send m => net.send sender m
  | .read r p => update net r ((net r).readInput p)

/-- The state after some messages and bytes. -/
def run (net : Network ρ π) (sender : ρ) (events : List (NetworkEvent ρ π)) : Network ρ π :=
  events.foldl (step sender) net

end Network

/-- The message of an event, unless `moo_ipc_send` refuses it. -/
def NetworkEvent.sent {ρ π : Type*} : NetworkEvent ρ π → Option IpcMessage
  | .send m => if m.id.length ≠ 0 ∧ m.id.length < maxIdLen then some m else none
  | .read _ _ => none

/-- The calls for a message. -/
def IpcData.handed (d : IpcData) (m : IpcMessage) : List ClientCall := d.dispatch m.id m.data

/-! ## One message -/

theorem ascii_versionString : versionString = [48, 48, 48, 49] := rfl

theorem takeWhile_ne_zero {s : List UInt8} (h : 0 ∉ s) : s.takeWhile (· ≠ 0) = s := by
  refine List.takeWhile_eq_self_iff.2 fun c hc => ?_
  simp only [decide_eq_true_eq]
  rintro rfl
  exact h hc

theorem takeWhile_strndup {s : List UInt8} (h : 0 ∉ s) (rest : List UInt8) :
    (strndup (s ++ rest) s.length).takeWhile (· ≠ 0) = s := by
  have hs : (s ++ rest).take s.length = s := List.take_left
  rw [strndup_eq (by simp) (by rwa [hs]), hs, takeWhile_ne_zero h]

theorem zero_notMem_hexPad (w n : ℕ) : 0 ∉ hexPad w n := by
  intro h
  exact (not_space_of_hexValue (hexValue_isSome h)).2.2.2.2.2 rfl

/-- A number in a message is read as it was written. -/
theorem getUint_hexPad {w n : ℕ} (hw : w ≠ 0) (hn : n < 16 ^ w) (h32 : n < 2 ^ 32)
    (rest : List UInt8) : getUint (hexPad w n ++ rest) w = some n := by
  have hstr : (strndup (hexPad w n ++ rest) w).takeWhile (· ≠ 0) = hexPad w n := by
    have h := takeWhile_strndup (zero_notMem_hexPad w n) rest
    rwa [length_hexPad hn] at h
  have hread := strtoullHex_hexPad hw (show n < 2 ^ 64 by omega)
  simp only [getUint, hstr, hread, h32, and_self, if_true]

namespace IpcData

/-- A message is taken apart as it was put together. -/
theorem dispatchMessage_wire (d : IpcData) {app self : AppId} (happ : d.appId = some self)
    {stamp : ℕ} (hstamp : stamp < 2 ^ 32) {m : IpcMessage} (hid : 0 ∉ m.id)
    (hlen : m.id.length < maxIdLen) :
    d.dispatchMessage (wire app stamp m.id m.data).tail =
      if self = app then (d, [])
      else match d.checkStamp app.bytes stamp with
        | none => (d, [])
        | some d' => (d', d'.handed m) := by
  have hs8 : (hexPad 8 stamp).length = 8 := length_hexPad (by omega)
  have hi4 : (hexPad 4 m.id.length).length = 4 :=
    length_hexPad (by simp only [maxIdLen] at hlen; omega)
  have happ8 := app.length
  have hself8 := self.length
  have hver : versionString.length = 4 := rfl
  have hmsg : (wire app stamp m.id m.data).tail = versionString ++
      (app.bytes ++ (hexPad 8 stamp ++ (hexPad 4 m.id.length ++ (m.id ++ m.data)))) := by
    simp [wire]
  have hlong : ¬ (wire app stamp m.id m.data).tail.length < 24 := by
    rw [hmsg]
    simp only [List.length_append, hs8, hi4, happ8, hver]
    omega
  have hdrop4 (s : List UInt8) : (versionString ++ s).drop 4 = s := List.drop_left' hver
  have hdrop8 (s : List UInt8) : (app.bytes ++ s).drop 8 = s := List.drop_left' happ8
  have hdropS (s : List UInt8) : (hexPad 8 stamp ++ s).drop 8 = s := List.drop_left' hs8
  have hdropI (s : List UInt8) : (hexPad 4 m.id.length ++ s).drop 4 = s := List.drop_left' hi4
  have hcmpV (s : List UInt8) : strncmpEq (versionString ++ s) versionString 4 = true := by
    simp [strncmpEq, ascii_versionString]
  have hcmpA (s : List UInt8) : strncmpEq (app.bytes ++ s) self.bytes 8 = decide (self = app) := by
    rw [strncmpEq, List.take_left' happ8, List.take_of_length_le (le_of_eq hself8)]
    by_cases heq : self = app
    · simp [heq]
    · simp only [heq, decide_false, beq_eq_false_iff_ne]
      intro hbytes
      cases app; cases self
      simp_all
  have hname (s : List UInt8) : (strndup (app.bytes ++ s) 8).takeWhile (· ≠ 0) = app.bytes := by
    have h := takeWhile_strndup app.zero_notMem s
    rwa [happ8] at h
  have hgetS (s : List UInt8) : getUint (hexPad 8 stamp ++ s) 8 = some stamp :=
    getUint_hexPad (by omega) (by omega) hstamp s
  have hgetI (s : List UInt8) : getUint (hexPad 4 m.id.length ++ s) 4 = some m.id.length := by
    simp only [maxIdLen] at hlen
    exact getUint_hexPad (by omega) (by omega) (by omega) s
  have hgetId : (strndup (m.id ++ m.data) m.id.length).takeWhile (· ≠ 0) = m.id :=
    takeWhile_strndup hid _
  have hidlen : ¬ (m.id ++ m.data).length < m.id.length := by simp
  have hdropId : (m.id ++ m.data).drop m.id.length = m.data := List.drop_left' rfl
  unfold dispatchMessage
  rw [if_neg hlong, happ, hmsg]
  simp only [hcmpV, Bool.not_true, Bool.false_eq_true, if_false, hdrop4, hcmpA, decide_eq_true_eq]
  split_ifs with heq
  · rfl
  · simp only [hname, hdrop8, hgetS]
    cases d.checkStamp app.bytes stamp with
    | none => rfl
    | some d' => simp only [hdropS, hgetI, hdropI, hidlen, if_false, hgetId, hdropId, handed]

/-- A message is new when its stamp is above the last one. -/
theorem checkStamp_eq (d : IpcData) (app : List UInt8) (stamp : ℕ) (h : stamp ≠ 0) :
    d.checkStamp app stamp = if stamp ≤ d.stampHash app then none
      else some { d with stampHash := update d.stampHash app stamp } := by
  unfold checkStamp
  split_ifs <;> first | rfl | omega

/-- Messages of `app` are those of another instance. -/
def Listens (d : IpcData) (app : AppId) : Prop := ∃ self, d.appId = some self ∧ self ≠ app

/-- A message is handed over when its stamp is new. -/
theorem dispatchMessage_listens {d : IpcData} {app : AppId} (hd : d.Listens app) {stamp : ℕ}
    (hpos : stamp ≠ 0) (hstamp : stamp < 2 ^ 32) {m : IpcMessage} (hid : 0 ∉ m.id)
    (hlen : m.id.length < maxIdLen) :
    d.dispatchMessage (wire app stamp m.id m.data).tail =
      if stamp ≤ d.stampHash app.bytes then (d, [])
      else ({ d with stampHash := update d.stampHash app.bytes stamp }, d.handed m) := by
  obtain ⟨self, hself, hne⟩ := hd
  rw [d.dispatchMessage_wire hself hstamp hid hlen, if_neg hne, d.checkStamp_eq _ _ hpos]
  split_ifs <;> rfl

theorem dispatchMessage_silent {d : IpcData} {app : AppId} (hd : ¬ d.Listens app) {stamp : ℕ}
    (hstamp : stamp < 2 ^ 32) {m : IpcMessage} (hid : 0 ∉ m.id) (hlen : m.id.length < maxIdLen) :
    d.dispatchMessage (wire app stamp m.id m.data).tail = (d, []) := by
  cases hself : d.appId with
  | none =>
    unfold dispatchMessage
    rw [hself]
    split_ifs <;> rfl
  | some self =>
    have heq : self = app := by
      by_contra hne
      exact hd ⟨self, hself, hne⟩
    rw [d.dispatchMessage_wire hself hstamp hid hlen, if_pos heq]

end IpcData

theorem IpcData.dispatchMessage_stamp (d : IpcData) (data : List UInt8) :
    (d.dispatchMessage data).1.stamp = d.stamp := by
  have hcheck {app : List UInt8} {stamp : ℕ} {d' : IpcData}
      (h : d.checkStamp app stamp = some d') : d'.stamp = d.stamp := by
    grind [checkStamp]
  simp only [dispatchMessage]
  repeat' split
  all_goals first | rfl | exact hcheck ‹_›

theorem wire_eq (app : AppId) (stamp : ℕ) (id data : List UInt8) :
    wire app stamp id data = ipcMagicChar :: (wire app stamp id data).tail := rfl

theorem zero_notMem_wire (app : AppId) (stamp : ℕ) {m : IpcMessage} (hid : 0 ∉ m.id)
    (hdata : 0 ∉ m.data) : 0 ∉ wire app stamp m.id m.data := by
  have happ := app.zero_notMem
  have hstamp := zero_notMem_hexPad 8 stamp
  have hlen := zero_notMem_hexPad 4 m.id.length
  simp only [wire, ascii_versionString, ipcMagicChar, List.mem_cons, List.mem_append, not_or]
  simp [happ, hstamp, hlen, hid, hdata]

/-! ## One pipe -/

namespace Pipe

/-- The frames `todo` are still to come on a pipe, with what is there of the first of them. -/
structure Carries (q : Pipe) (todo : List (List UInt8)) : Prop where
  buffer : 0 ∉ q.buffer
  bytes : q.buffer ++ q.unread = (todo.map (· ++ [0])).flatten

variable {q : Pipe} {todo : List (List UInt8)}

theorem Carries.write (h : q.Carries todo) (frame : List UInt8) :
    (q.write (frame ++ [0])).Carries (todo ++ [frame]) where
  buffer := h.buffer
  bytes := by simp [Pipe.write, ← List.append_assoc, h.bytes]

/-- A byte of a frame. -/
theorem Carries.more (h : q.Carries todo) {c : UInt8} {rest : List UInt8}
    (hq : q.unread = c :: rest) (hc : c ≠ 0) : Pipe.Carries ⟨rest, q.buffer ++ [c]⟩ todo where
  buffer := by
    have hbuffer := h.buffer
    simp [hbuffer, Ne.symm hc]
  bytes := by
    have hbytes := h.bytes
    rw [hq] at hbytes
    simpa using hbytes

/-- The end of a frame. -/
theorem Carries.whole (h : q.Carries todo) (htodo : ∀ f ∈ todo, 0 ∉ f) {rest : List UInt8}
    (hq : q.unread = 0 :: rest) : ∃ todo', todo = q.buffer :: todo' ∧ Pipe.Carries ⟨rest, []⟩ todo' := by
  have hbytes := h.bytes
  rw [hq] at hbytes
  cases todo with
  | nil => simp at hbytes
  | cons f todo' =>
    have hf := htodo f (by simp)
    rw [List.map_cons, List.flatten_cons, List.append_assoc, List.singleton_append] at hbytes
    obtain ⟨rfl, hrest⟩ := Framing.append_cons_inj h.buffer hf hbytes
    exact ⟨todo', rfl, by simp, by simpa using hrest⟩

/-- Nothing is to come on a pipe that has been read. -/
theorem Carries.eq_nil (h : q.Carries todo) (hq : q.unread = []) : todo = [] := by
  have hbytes := h.bytes
  have hbuffer := h.buffer
  rw [hq, List.append_nil] at hbytes
  cases todo with
  | nil => rfl
  | cons f todo' =>
    rw [hbytes] at hbuffer
    simp at hbuffer

end Pipe

/-- Reading a byte either goes on with a frame or takes it. -/
theorem Instance.readInput_cases {π : Type*} [DecidableEq π] (s : Instance π) (p : π)
    {todo : List (List UInt8)} (h : (s.pipes p).Carries todo)
    (htodo : ∀ f ∈ todo, 0 ∉ f ∧ f = ipcMagicChar :: f.tail) :
    (∃ q, q.Carries todo ∧ s.readInput p = { s with pipes := update s.pipes p q }) ∨
    ∃ f todo' q, todo = f :: todo' ∧ q.Carries todo' ∧ s.readInput p =
      { ipc := (s.ipc.dispatchMessage f.tail).1
        calls := s.calls ++ (s.ipc.dispatchMessage f.tail).2
        pipes := update s.pipes p q } := by
  cases hq : (s.pipes p).unread with
  | nil =>
    refine Or.inl ⟨s.pipes p, h, ?_⟩
    simp [readInput, hq]
  | cons c rest =>
    by_cases hc : c = 0
    · subst hc
      obtain ⟨todo', rfl, hq'⟩ := h.whole (fun f hf => (htodo f hf).1) hq
      have hframe := (htodo (s.pipes p).buffer (by simp)).2
      refine Or.inr ⟨_, todo', _, rfl, hq', ?_⟩
      rw [readInput, hq]
      simp only [if_true, commit, update_self]
      split
      · next hnil => simp [hnil] at hframe
      · next cmd data hcons =>
        rw [hcons] at hframe ⊢
        obtain rfl : cmd = ipcMagicChar := by simpa using hframe
        simp
    · refine Or.inl ⟨_, h.more hq hc, ?_⟩
      simp [readInput, hq, hc]

@[simp] theorem Instance.readInput_stamp {π : Type*} [DecidableEq π] (s : Instance π) (p : π) :
    (s.readInput p).ipc.stamp = s.ipc.stamp := by
  have hdispatch := IpcData.dispatchMessage_stamp
  grind [readInput, commit]

/-! ## One receiver -/

/-- What `moo_ipc_send` writes of messages one after another. -/
def wires (app : AppId) (base : ℕ) (sent : List IpcMessage) : List (List UInt8) :=
  sent.mapIdx fun i m => wire app (base + i + 1) m.id m.data

/-- A message that can be sent. -/
structure IpcMessage.Sendable (m : IpcMessage) : Prop where
  id_length : m.id.length ≠ 0 ∧ m.id.length < maxIdLen
  id : 0 ∉ m.id
  data : 0 ∉ m.data

section

variable {app : AppId} {base : ℕ} {sent : List IpcMessage}

@[simp] theorem length_wires : (wires app base sent).length = sent.length := List.length_mapIdx

theorem wires_append (m : IpcMessage) : wires app base (sent ++ [m]) =
    wires app base sent ++ [wire app (base + sent.length + 1) m.id m.data] := List.mapIdx_concat

theorem mem_wires {f : List UInt8} (hsent : ∀ m ∈ sent, m.Sendable) (h : f ∈ wires app base sent) :
    0 ∉ f ∧ f = ipcMagicChar :: f.tail := by
  obtain ⟨i, hi, rfl⟩ := List.mem_mapIdx.1 h
  have hm := hsent _ (List.getElem_mem hi)
  exact ⟨zero_notMem_wire app _ hm.id hm.data, wire_eq ..⟩

theorem drop_wires {k : ℕ} {f : List UInt8} {todo : List (List UInt8)}
    (h : (wires app base sent).drop k = f :: todo) : ∃ m, sent[k]? = some m ∧
      f = wire app (base + k + 1) m.id m.data ∧ todo = (wires app base sent).drop (k + 1) := by
  have hf : (wires app base sent)[k]? = some f := by
    rw [← List.head?_drop, h, List.head?_cons]
  rw [wires, List.getElem?_mapIdx, Option.map_eq_some_iff] at hf
  obtain ⟨m, hm, rfl⟩ := hf
  refine ⟨m, hm, rfl, ?_⟩
  rw [← List.tail_drop, h, List.tail_cons]

end

namespace Instance

variable {π : Type*}

/-- A receiver that started with `d` has heard and taken of the messages `sent` what `h` says. -/
structure Hears (d : IpcData) (app : AppId) (base : ℕ) (sent : List IpcMessage) (h : Hearing π)
    (s : Instance π) : Prop where
  appId : s.ipc.appId = d.appId
  clients : s.ipc.clients = d.clients
  pipes : ∀ p, (s.pipes p).Carries ((wires app base sent).drop (h.heard p))
  taken_le : h.taken ≤ sent.length
  stamp_le : s.ipc.stampHash app.bytes ≤ base + h.taken
  stamp_eq : d.Listens app → h.taken ≠ 0 → s.ipc.stampHash app.bytes = base + h.taken
  calls : d.Listens app → s.calls = (sent.take h.taken).flatMap d.handed
  silent : ¬ d.Listens app → s.calls = []

namespace Hears

variable {d : IpcData} {app : AppId} {base : ℕ} {sent : List IpcMessage} {h : Hearing π}
  {s : Instance π}

/-- Another message is written. -/
theorem write (hs : Hears d app base sent h s) (m : IpcMessage) (stamp : ℕ) :
    Hears d app base (sent ++ [m]) h
      { ipc := { s.ipc with stamp := stamp }, calls := s.calls,
        pipes := fun p => (s.pipes p).write (wire app (base + sent.length + 1) m.id m.data ++ [0]) }
    where
  appId := hs.appId
  clients := hs.clients
  pipes p := by
    have hle : h.heard p ≤ (wires app base sent).length := by
      rw [length_wires]
      exact (h.heard_le p).trans hs.taken_le
    rw [wires_append, List.drop_append_of_le_length hle]
    exact (hs.pipes p).write _
  taken_le := by
    have hle := hs.taken_le
    rw [List.length_append]
    omega
  stamp_le := hs.stamp_le
  stamp_eq := hs.stamp_eq
  calls hd := by
    rw [List.take_append_of_le_length hs.taken_le]
    exact hs.calls hd
  silent := hs.silent

/-- A byte is read. -/
theorem readInput [DecidableEq π] (hs : Hears d app base sent h s)
    (hsent : ∀ m ∈ sent, m.Sendable) (hbound : base + sent.length < 2 ^ 32) (p : π) :
    ∃ h', Hears d app base sent h' (s.readInput p) := by
  have hframes (f) (hf : f ∈ (wires app base sent).drop (h.heard p)) :=
    mem_wires hsent (List.mem_of_mem_drop hf)
  obtain ⟨q, hq, heq⟩ | ⟨f, todo', q, htodo, hq, heq⟩ := s.readInput_cases p (hs.pipes p) hframes
  · refine ⟨h, ?_⟩
    rw [heq]
    refine { hs with pipes := fun p' => ?_ }
    rcases eq_or_ne p' p with rfl | hp
    · simpa using hq
    · simpa [hp] using hs.pipes p'
  · obtain ⟨m, hm, rfl, rfl⟩ := drop_wires htodo
    have hlt : h.heard p < sent.length := (List.getElem?_eq_some_iff.1 hm).1
    have hsend := hsent m (List.mem_of_getElem? hm)
    have hstamp : base + h.heard p + 1 < 2 ^ 32 := by omega
    have hheard := h.heard_le p
    have hpipes (p' : π) : (update s.pipes p q p').Carries
        ((wires app base sent).drop ((h.hear p).heard p')) := by
      rcases eq_or_ne p' p with rfl | hp
      · simpa using hq
      · simpa [hp] using hs.pipes p'
    have htaken : (h.hear p).taken ≤ sent.length := by
      have hle := hs.taken_le
      simp only [Hearing.hear]
      split_ifs <;> omega
    rw [heq]
    refine ⟨h.hear p, ?_⟩
    by_cases hd : d.Listens app
    · have hd' : s.ipc.Listens app := by
        unfold IpcData.Listens
        rwa [hs.appId]
      rw [IpcData.dispatchMessage_listens hd' (by omega) hstamp hsend.id hsend.id_length.2]
      have hle := hs.stamp_le
      have hseq := hs.stamp_eq hd
      have hcalls := hs.calls hd
      have hhanded : s.ipc.handed m = d.handed m := by
        simp only [IpcData.handed, IpcData.dispatch, hs.clients]
      rcases eq_or_ne (h.heard p) h.taken with hk | hk
      -- the first copy
      · have hnew : ¬ base + h.heard p + 1 ≤ s.ipc.stampHash app.bytes := by omega
        rw [if_neg hnew]
        refine ⟨hs.appId, hs.clients, hpipes, htaken, ?_, ?_, ?_, fun h' => absurd hd h'⟩
        · simp [Hearing.hear, hk, Nat.add_assoc]
        · simp [Hearing.hear, hk, Nat.add_assoc]
        · intro _
          rw [hk] at hm
          simp [h.take_hear, hk, hcalls, hhanded, hm]
      -- another copy has been taken
      · have hold : base + h.heard p + 1 ≤ s.ipc.stampHash app.bytes := by omega
        rw [if_pos hold]
        refine ⟨hs.appId, hs.clients, hpipes, htaken, ?_, ?_, ?_, fun h' => absurd hd h'⟩
        · simpa [Hearing.hear, hk] using hle
        · simpa [Hearing.hear, hk] using hs.stamp_eq
        · intro _
          simp [h.take_hear, hk, hcalls]
    · have hd' : ¬ s.ipc.Listens app := by
        unfold IpcData.Listens
        rwa [hs.appId]
      rw [IpcData.dispatchMessage_silent hd' hstamp hsend.id hsend.id_length.2]
      have hle := hs.stamp_le
      refine ⟨hs.appId, hs.clients, hpipes, htaken, ?_, fun h' => absurd h' hd,
        fun h' => absurd h' hd, fun _ => ?_⟩
      · simp only [Hearing.hear]
        split_ifs <;> omega
      · simpa using hs.silent hd

end Hears

end Instance

/-! ## All receivers -/

namespace Network

variable {ρ π : Type*}

/-- An instance before the first message: `base` is the last number of the sender. -/
structure Waits (app : AppId) (base : ℕ) (s : Instance π) : Prop where
  pipes : ∀ p, s.pipes p = ⟨[], []⟩
  calls : s.calls = []
  stamp_le : s.ipc.stampHash app.bytes ≤ base
  clients : s.ipc.appId = none → ∀ id, s.ipc.clients id = []

/-- The messages `sent` have been written, and the receivers have taken some of them. -/
structure Delivers (start : Network ρ π) (sender : ρ) (app : AppId) (sent : List IpcMessage)
    (net : Network ρ π) : Prop where
  stamp : (net sender).ipc.stamp = (start sender).ipc.stamp + sent.length
  hears : ∀ r, ∃ h, Instance.Hears (start r).ipc app (start sender).ipc.stamp sent h (net r)

variable {start net : Network ρ π} {sender : ρ} {app : AppId} {sent : List IpcMessage}

theorem Delivers.initial (h : ∀ r, Waits app (start sender).ipc.stamp (start r)) :
    Delivers start sender app [] start where
  stamp := rfl
  hears r := by
    have hr := h r
    refine ⟨.start, rfl, rfl, fun p => ?_, le_rfl, hr.stamp_le, ?_, ?_, fun _ => hr.calls⟩
    · rw [hr.pipes]
      exact ⟨by simp, by simp [wires]⟩
    · intro _ htaken
      exact absurd rfl htaken
    · intro _
      simpa using hr.calls

/-- A message that is not refused is written on every pipe. -/
theorem send_eq [DecidableEq ρ] (happ : (net sender).ipc.appId = some app) {m : IpcMessage}
    (hm : m.id.length ≠ 0 ∧ m.id.length < maxIdLen) (hstamp : (net sender).ipc.stamp + 1 < 2 ^ 32)
    (r : ρ) : net.send sender m r =
      { ipc := { (net r).ipc with
          stamp := if r = sender then (net sender).ipc.stamp + 1 else (net r).ipc.stamp }
        calls := (net r).calls
        pipes := fun p => ((net r).pipes p).write
          (wire app ((net sender).ipc.stamp + 1) m.id m.data ++ [0]) } := by
  have hguint : guint ((net sender).ipc.stamp + 1) = (net sender).ipc.stamp + 1 :=
    Nat.mod_eq_of_lt hstamp
  simp only [send, IpcData.send, happ, if_pos hm, hguint]
  split_ifs with hr
  · subst hr
    simp [happ]
  · simp

theorem send_refused [DecidableEq ρ] {m : IpcMessage} (hm : ¬ (m.id.length ≠ 0 ∧ m.id.length < maxIdLen)) :
    net.send sender m = net := by
  funext r
  cases happ : (net sender).ipc.appId with
  | none =>
    simp only [send, IpcData.send, happ]
    split_ifs with hr <;> simp [Pipe.write, hr]
  | some app =>
    simp only [send, IpcData.send, happ, if_neg hm]
    split_ifs with hr <;> simp [Pipe.write, hr]

/-- One event. -/
theorem Delivers.step [DecidableEq ρ] [DecidableEq π] (h : Delivers start sender app sent net)
    (happ : (start sender).ipc.appId = some app) (hsent : ∀ m ∈ sent, m.Sendable)
    (e : NetworkEvent ρ π)
    (hbound : (start sender).ipc.stamp + (sent ++ e.sent.toList).length < 2 ^ 32) :
    Delivers start sender app (sent ++ e.sent.toList) (net.step sender e) := by
  cases e with
  | send m =>
    by_cases hm : m.id.length ≠ 0 ∧ m.id.length < maxIdLen
    · have happ' : (net sender).ipc.appId = some app := by
        obtain ⟨_, hs⟩ := h.hears sender
        rw [hs.appId, happ]
      have hlen : (NetworkEvent.send m : NetworkEvent ρ π).sent = some m := if_pos hm
      have hstamp := h.stamp
      rw [hlen] at hbound ⊢
      simp only [Option.toList_some, List.length_append, List.length_singleton] at hbound ⊢
      have hwrite := send_eq happ' hm (by omega)
      constructor
      · rw [Network.step, hwrite]
        simp
        omega
      · intro r
        obtain ⟨k, hs⟩ := h.hears r
        refine ⟨k, ?_⟩
        rw [Network.step, hwrite, hstamp]
        exact hs.write m _
    · have hlen : (NetworkEvent.send m : NetworkEvent ρ π).sent = none := if_neg hm
      rw [hlen, Network.step, send_refused hm, Option.toList_none, List.append_nil]
      exact h
  | read r p =>
    have hsame : (NetworkEvent.read r p).sent = none := rfl
    rw [hsame, Option.toList_none, List.append_nil] at hbound ⊢
    constructor
    · rw [← h.stamp, Network.step]
      rcases eq_or_ne r sender with rfl | hr
      · rw [update_self, Instance.readInput_stamp]
      · rw [update_of_ne hr.symm]
    · intro r'
      rw [Network.step]
      obtain ⟨k, hs⟩ := h.hears r'
      rcases eq_or_ne r' r with rfl | hr
      · rw [update_self]
        exact hs.readInput hsent hbound p
      · rw [update_of_ne hr]
        exact ⟨k, hs⟩

/-- All events. -/
theorem Delivers.run [DecidableEq ρ] [DecidableEq π] (h : Delivers start sender app sent net)
    (happ : (start sender).ipc.appId = some app) (hsent : ∀ m ∈ sent, m.Sendable)
    {events : List (NetworkEvent ρ π)} (hevents : ∀ m ∈ events.filterMap NetworkEvent.sent, m.Sendable)
    (hbound : (start sender).ipc.stamp +
      (sent ++ events.filterMap NetworkEvent.sent).length < 2 ^ 32) :
    Delivers start sender app (sent ++ events.filterMap NetworkEvent.sent)
      (net.run sender events) := by
  induction events generalizing sent net with
  | nil =>
    rw [List.filterMap_nil, List.append_nil]
    exact h
  | cons e events ih =>
    have hcons : (e :: events).filterMap NetworkEvent.sent =
        e.sent.toList ++ events.filterMap NetworkEvent.sent := by
      cases he : e.sent <;> simp [he]
    rw [hcons, ← List.append_assoc] at hbound ⊢
    rw [hcons] at hevents
    have hbound' : (start sender).ipc.stamp + (sent ++ e.sent.toList).length < 2 ^ 32 := by
      rw [List.length_append] at hbound
      omega
    refine ih (h.step happ hsent e hbound') (fun m hm => ?_)
      (fun m hm => hevents m (List.mem_append_right _ hm)) hbound
    obtain hm | hm := List.mem_append.1 hm
    · exact hsent m hm
    · exact hevents m (List.mem_append_left _ hm)

/-- Whatever the order in which pipes are read, each receiver hands every message over once and in
order, and the sender none. -/
theorem delivered_once [DecidableEq ρ] [DecidableEq π] (net : Network ρ π) (sender : ρ) (app : AppId)
    (happ : (net sender).ipc.appId = some app)
    (hstart : ∀ r, Waits app (net sender).ipc.stamp (net r)) (events : List (NetworkEvent ρ π))
    (hevents : ∀ m, .send m ∈ events → 0 ∉ m.id ∧ 0 ∉ m.data)
    (hbound : (net sender).ipc.stamp + (events.filterMap NetworkEvent.sent).length < 2 ^ 32) :
    let sent := events.filterMap NetworkEvent.sent
    (∀ r, (net r).ipc.appId ≠ some app → ∃ k ≤ sent.length,
      (net.run sender events r).calls = (sent.take k).flatMap (net r).ipc.handed ∧
      ∀ p, ((net.run sender events r).pipes p).unread = [] → k = sent.length) ∧
    ∀ r, (net r).ipc.appId = some app → (net.run sender events r).calls = [] := by
  have hsend (m) (hm : m ∈ events.filterMap NetworkEvent.sent) : m.Sendable := by
    obtain ⟨e, he, hm⟩ := List.mem_filterMap.1 hm
    cases e with
    | read r p => simp [NetworkEvent.sent] at hm
    | send m' =>
      simp only [NetworkEvent.sent, Option.ite_none_right_eq_some, Option.some.injEq] at hm
      obtain ⟨hlen, rfl⟩ := hm
      exact ⟨hlen, (hevents m' he).1, (hevents m' he).2⟩
  have hrun := (Delivers.initial hstart).run happ (by simp) hsend (by simpa using hbound)
  rw [List.nil_append] at hrun
  constructor
  · intro r hr
    obtain ⟨h, hs⟩ := hrun.hears r
    refine ⟨h.taken, hs.taken_le, ?_, fun p hp => ?_⟩
    · cases hself : (net r).ipc.appId with
      | none =>
        have hsilent : ¬ (net r).ipc.Listens app := by
          rintro ⟨self, hself', -⟩
          rw [hself] at hself'
          cases hself'
        have hnone (m : IpcMessage) : (net r).ipc.handed m = [] := by
          rw [IpcData.handed, IpcData.dispatch, (hstart r).clients hself]
          rfl
        rw [hs.silent hsilent]
        simp [hnone]
      | some self =>
        refine hs.calls ⟨self, hself, ?_⟩
        rintro rfl
        exact hr hself
    · have hdrop := (hs.pipes p).eq_nil hp
      rw [List.drop_eq_nil_iff, length_wires] at hdrop
      exact le_antisymm hs.taken_le (hdrop.trans (h.heard_le p))
  · intro r hr
    obtain ⟨h, hs⟩ := hrun.hears r
    refine hs.silent ?_
    rintro ⟨self, hself, hne⟩
    rw [hr] at hself
    exact hne (Option.some.inj hself).symm

/-- Two instances with two pipes each; the second one has a client. -/
def pair : Network Bool Bool := fun r =>
  { ipc :=
      { appId := some ⟨replicate 7 48 ++ [if r then 49 else 50], by simp, by cases r <;> decide⟩
        stamp := 0
        stampHash := fun _ => 0
        clients := fun id => if r = true ∧ id = [97] then [7] else [] }
    calls := []
    pipes := fun _ => ⟨[], []⟩ }

/-- The message has come in when one pipe has been read. -/
theorem delivered_once_pair :
    (pair.run false (.send ⟨[97], [98]⟩ :: replicate 28 (.read true true)) true).calls =
      [⟨7, [97], [98]⟩] := by
  obtain ⟨hothers, -⟩ := delivered_once pair false _ rfl
    (fun r => ⟨fun _ => rfl, rfl, le_rfl, by simp [pair]⟩)
    (.send ⟨[97], [98]⟩ :: replicate 28 (.read true true)) (by simp) (by decide)
  obtain ⟨k, -, hcalls, hread⟩ := hothers true (by decide)
  rw [hcalls, hread true (by decide)]
  decide

end Network

end Medit
