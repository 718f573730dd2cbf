import Pmdk.Rpmem.Proto

/-!
# The out-of-band connection

`rpmemd_obc_process` waits for a request of the client, checks it and calls a callback; the client
sends requests and checks the responses. A message that is cast to the structure of its type may be
shorter than the structure, and reading it then leaves the buffer that was allocated for it.
-/

namespace Pmdk.Rpmem

open Endian

structure ReqAttr where
  pool_size : BitVec 64
  nlanes : BitVec 32
  buff_size : BitVec 64
  provider : BitVec 32
  /-- The string without its end. -/
  pool_desc : List UInt8
  deriving DecidableEq

structure RespAttr where
  port : BitVec 16
  rkey : BitVec 64
  raddr : BitVec 64
  nlanes : BitVec 32
  persist_method : BitVec 32
  deriving DecidableEq

/-! ## The daemon -/

inductive Stop where
  /-- A read behind the allocated message. -/
  | outside
  | failed
  | disconnected
  deriving DecidableEq

inductive Callback where
  | create (req : ReqAttr) (rattr : Option PoolAttr)
  | open (req : ReqAttr)
  | close (flags : BitVec 32)
  | set_attr (rattr : Option PoolAttr)
  deriving DecidableEq

def check (ok : Bool) : Except Stop Unit := if ok then .ok () else .error .failed

/-- A message is cast to a structure of `size` bytes, and the structure is read. -/
def cast {α : Type} (size : Nat) (read : Read α) (msg : List UInt8) :
    Except Stop (α × List UInt8) :=
  if size ≤ msg.length then .ok (read msg) else .error .outside

def rpmemdObcCheckProtoVer (major minor : BitVec 16) : Except Stop Unit :=
  check (major = RPMEM_PROTO_MAJOR ∧ minor = RPMEM_PROTO_MINOR)

def rpmemdObcCheckMsgHdr (hdr : MsgHdr) : Except Stop Unit := do
  check (hdr.type = RPMEM_MSG_TYPE_OPEN ∨ hdr.type = RPMEM_MSG_TYPE_CREATE ∨
    hdr.type = RPMEM_MSG_TYPE_CLOSE ∨ hdr.type = RPMEM_MSG_TYPE_SET_ATTR)
  check (12 ≤ hdr.size.toNat)

def strlen (s : List UInt8) : Except Stop Nat :=
  if 0 ∈ s then .ok (s.takeWhile (· ≠ 0)).length else .error .outside

/-- `desc` is what follows the size in the message. -/
def rpmemdObcCheckPoolDesc (hdr : MsgHdr) (msg_size : Nat) (size : BitVec 32)
    (desc : List UInt8) : Except Stop Unit := do
  check (hdr.size.toNat = msg_size + size.toNat)
  check (2 ≤ size.toNat)
  let last ← desc[size.toNat - 1]?.elim (.error .outside) .ok
  check (last = 0)
  let len ← strlen desc
  check (size.toNat = len + 1)

def rpmemdObcCheckProvider (provider : BitVec 32) : Except Stop Unit :=
  check (provider ≠ 0 ∧ provider < MAX_RPMEM_PROV)

/-- `rpmem_msg_create`, of 148 bytes, and the descriptor behind it. -/
structure MsgCreate where
  hdr : MsgHdr
  c : MsgCommon
  pool_attr : PoolAttrPacked
  size : BitVec 32

def MsgCreate.bytes (h : Order) (m : MsgCreate) : List UInt8 :=
  m.hdr.bytes h ++ (m.c.bytes h ++ (m.pool_attr.bytes h ++ store h 4 m.size))

def MsgCreate.read (h : Order) : Read MsgCreate := do
  return {
    hdr := ← MsgHdr.read h, c := ← MsgCommon.read h, pool_attr := ← PoolAttrPacked.read h
    size := ← .word h 4 }

def MsgCreate.ntoh (h : Order) (m : MsgCreate) : MsgCreate where
  hdr := m.hdr.ntoh h
  c := m.c.ntoh h
  pool_attr := m.pool_attr.ntoh h
  size := toh h 4 m.size

/-- `rpmem_msg_open`, of 44 bytes, and the descriptor behind it. -/
structure MsgOpen where
  hdr : MsgHdr
  c : MsgCommon
  size : BitVec 32

def MsgOpen.bytes (h : Order) (m : MsgOpen) : List UInt8 :=
  m.hdr.bytes h ++ (m.c.bytes h ++ store h 4 m.size)

def MsgOpen.read (h : Order) : Read MsgOpen := do
  return { hdr := ← MsgHdr.read h, c := ← MsgCommon.read h, size := ← .word h 4 }

def MsgOpen.ntoh (h : Order) (m : MsgOpen) : MsgOpen where
  hdr := m.hdr.ntoh h
  c := m.c.ntoh h
  size := toh h 4 m.size

structure MsgClose where
  hdr : MsgHdr
  flags : BitVec 32

def MsgClose.bytes (h : Order) (m : MsgClose) : List UInt8 := m.hdr.bytes h ++ store h 4 m.flags

def MsgClose.read (h : Order) : Read MsgClose := do
  return { hdr := ← MsgHdr.read h, flags := ← .word h 4 }

def MsgClose.ntoh (h : Order) (m : MsgClose) : MsgClose := { m with hdr := m.hdr.ntoh h }

structure MsgSetAttr where
  hdr : MsgHdr
  pool_attr : PoolAttrPacked

def MsgSetAttr.bytes (h : Order) (m : MsgSetAttr) : List UInt8 :=
  m.hdr.bytes h ++ m.pool_attr.bytes h

def MsgSetAttr.read (h : Order) : Read MsgSetAttr := do
  return { hdr := ← MsgHdr.read h, pool_attr := ← PoolAttrPacked.read h }

def MsgSetAttr.ntoh (h : Order) (m : MsgSetAttr) : MsgSetAttr where
  hdr := m.hdr.ntoh h
  pool_attr := m.pool_attr.ntoh h

def unpackAttr (attr : PoolAttrPacked) : Option PoolAttr :=
  if attr.unpack = {} then none else some attr.unpack

def reqAttr (c : MsgCommon) (desc : List UInt8) : ReqAttr where
  pool_size := c.pool_size
  nlanes := c.nlanes
  buff_size := c.buff_size
  provider := c.provider
  pool_desc := desc.takeWhile (· ≠ 0)

def rpmemdObcNtohCheckMsgCreate (h : Order) (buf : List UInt8) :
    Except Stop (MsgCreate × List UInt8) := do
  let (msg, desc) ← cast 148 (MsgCreate.read h) buf
  let msg := msg.ntoh h
  rpmemdObcCheckProtoVer msg.c.major msg.c.minor
  rpmemdObcCheckPoolDesc msg.hdr 148 msg.size desc
  rpmemdObcCheckProvider msg.c.provider
  return (msg, desc)

def rpmemdObcProcessCreate (msg : MsgCreate) (desc : List UInt8) : Callback :=
  .create (reqAttr msg.c desc) (unpackAttr msg.pool_attr)

def rpmemdObcNtohCheckMsgOpen (h : Order) (buf : List UInt8) :
    Except Stop (MsgOpen × List UInt8) := do
  let (msg, desc) ← cast 44 (MsgOpen.read h) buf
  let msg := msg.ntoh h
  rpmemdObcCheckProtoVer msg.c.major msg.c.minor
  rpmemdObcCheckPoolDesc msg.hdr 44 msg.size desc
  rpmemdObcCheckProvider msg.c.provider
  return (msg, desc)

def rpmemdObcProcessOpen (msg : MsgOpen) (desc : List UInt8) : Callback :=
  .open (reqAttr msg.c desc)

/-- There is nothing to check; `rpmemd_obc_process_close` is the first to read the flags. -/
def rpmemdObcNtohCheckMsgClose (h : Order) (buf : List UInt8) : Except Stop MsgClose := do
  let (msg, _) ← cast 16 (MsgClose.read h) buf
  return msg.ntoh h

def rpmemdObcProcessClose (msg : MsgClose) : Callback := .close msg.flags

def rpmemdObcNtohCheckMsgSetAttr (h : Order) (buf : List UInt8) : Except Stop MsgSetAttr := do
  let (msg, _) ← cast 116 (MsgSetAttr.read h) buf
  return msg.ntoh h

def rpmemdObcProcessSetAttr (msg : MsgSetAttr) : Callback := .set_attr (unpackAttr msg.pool_attr)

/-- `rpmemd_obc_ntoh_check_msg` and `rpmemd_obc_process_cb` of a type. -/
def rpmemdObcProcessCb (h : Order) (type : BitVec 32) (buf : List UInt8) :
    Except Stop Callback :=
  if type = RPMEM_MSG_TYPE_CREATE then
    (fun (msg, desc) => rpmemdObcProcessCreate msg desc) <$> rpmemdObcNtohCheckMsgCreate h buf
  else if type = RPMEM_MSG_TYPE_OPEN then
    (fun (msg, desc) => rpmemdObcProcessOpen msg desc) <$> rpmemdObcNtohCheckMsgOpen h buf
  else if type = RPMEM_MSG_TYPE_CLOSE then
    rpmemdObcProcessClose <$> rpmemdObcNtohCheckMsgClose h buf
  else rpmemdObcProcessSetAttr <$> rpmemdObcNtohCheckMsgSetAttr h buf

def recvHdr (h : Order) (input : List UInt8) : MsgHdr := (MsgHdr.read h input).1.ntoh h

/-- `rpmemd_obc_msg_recv`: the message in its buffer. -/
def rpmemdObcMsgRecv (h : Order) (malloc : BitVec 64 → Bool) (input : List UInt8) :
    Except Stop (List UInt8) := do
  if input.length < 12 then throw .disconnected
  rpmemdObcCheckMsgHdr (recvHdr h input)
  check (malloc (recvHdr h input).size)
  check ((recvHdr h input).size.toNat ≤ input.length)
  return input.take (recvHdr h input).size.toNat

def rpmemdObcProcess (h : Order) (malloc : BitVec 64 → Bool) (input : List UInt8) :
    Except Stop Callback := do
  let buf ← rpmemdObcMsgRecv h malloc input
  rpmemdObcProcessCb h (recvHdr h input).type buf

/-! ## Messages that leave their buffer -/

/-- No read leaves the buffer, and a result meets `Q`. -/
def Contained {α : Type} (Q : α → Prop) : Except Stop α → Prop
  | .error s => s ≠ .outside
  | .ok a => Q a

variable {buf : List UInt8} {h : Order} {n : Nat} {hdr : MsgHdr}

section Contained

variable {α β : Type} {Q : α → Prop}

@[simp] theorem contained_pure {a : α} : Contained Q (pure a) ↔ Q a := Iff.rfl

@[simp] theorem contained_bind {x : Except Stop β} {f : β → Except Stop α} :
    Contained Q (x >>= f) ↔ Contained (fun b => Contained Q (f b)) x := by
  cases x <;> rfl

@[simp] theorem contained_map {x : Except Stop β} {f : β → α} :
    Contained Q (f <$> x) ↔ Contained (fun b => Q (f b)) x := by
  cases x <;> rfl

@[simp] theorem contained_check {Q : Unit → Prop} {ok : Bool} :
    Contained Q (check ok) ↔ (ok → Q ()) := by
  cases ok <;> simp [check, Contained]

@[simp] theorem contained_cast {read : Read α} {Q : α × List UInt8 → Prop} :
    Contained Q (cast n read buf) ↔ n ≤ buf.length ∧ Q (read buf) := by
  rw [cast]
  split_ifs with h <;> simp [Contained, h]

@[simp] theorem contained_elim {o : Option α} :
    Contained Q (o.elim (.error .outside) .ok) ↔ ∃ a, o = some a ∧ Q a := by
  cases o <;> simp [Contained]

@[simp] theorem contained_strlen {bs : List UInt8} {Q : Nat → Prop} :
    Contained Q (strlen bs) ↔ 0 ∈ bs ∧ Q (bs.takeWhile (· ≠ 0)).length := by
  rw [strlen]
  split_ifs with h <;> simp [Contained, h]

end Contained

theorem checkPoolDesc_contained {msg_size : Nat} {size : BitVec 32}
    {desc : List UInt8} (hdesc : hdr.size.toNat = msg_size + desc.length) :
    Contained (fun _ => hdr.size.toNat = msg_size + ((desc.takeWhile (· ≠ 0)).length + 1))
      (rpmemdObcCheckPoolDesc hdr msg_size size desc) := by
  simp only [rpmemdObcCheckPoolDesc, contained_bind, contained_check, contained_elim,
    contained_strlen, decide_eq_true_eq]
  intro hsize htwo
  have hlt : size.toNat - 1 < desc.length := by omega
  refine ⟨desc[size.toNat - 1], List.getElem?_eq_getElem hlt, fun hzero => ⟨?_, fun hlen => ?_⟩⟩
  · exact hzero ▸ List.getElem_mem hlt
  · omega

def Callback.msgSize : Callback → Nat
  | .create req _ => 148 + (req.pool_desc.length + 1)
  | .open req => 44 + (req.pool_desc.length + 1)
  | .close _ => 16
  | .set_attr _ => 116

def SizeOk (type : BitVec 32) (size : Nat) : Prop :=
  if type = RPMEM_MSG_TYPE_CREATE then 148 ≤ size
  else if type = RPMEM_MSG_TYPE_OPEN then 44 ≤ size
  else if type = RPMEM_MSG_TYPE_CLOSE then size = 16
  else size = 116

def Arrives (h : Order) (malloc : BitVec 64 → Bool) (input : List UInt8) : Prop :=
  12 ≤ input.length ∧ rpmemdObcCheckMsgHdr (recvHdr h input) = .ok () ∧
    malloc (recvHdr h input).size ∧ (recvHdr h input).size.toNat ≤ input.length

theorem contained_imp {α : Type} {Q Q' : α → Prop} {x : Except Stop α} (h : Contained Q x)
    (himp : ∀ a, Q a → Q' a) : Contained Q' x := by
  cases x with
  | error s => exact h
  | ok a => exact himp a h

theorem checks_contained {α : Type} {c : MsgCommon} {size : BitVec 32}
    {desc : List UInt8} {r : α} {Q : α → Prop} (hdesc : hdr.size.toNat = n + desc.length)
    (hr : hdr.size.toNat = n + ((reqAttr c desc).pool_desc.length + 1) → Q r) :
    Contained Q (do
      rpmemdObcCheckProtoVer c.major c.minor
      rpmemdObcCheckPoolDesc hdr n size desc
      rpmemdObcCheckProvider c.provider
      return r) := by
  simp only [contained_bind, rpmemdObcCheckProtoVer, rpmemdObcCheckProvider, contained_check,
    contained_pure]
  exact fun _ => contained_imp (checkPoolDesc_contained hdesc) fun _ hsize _ => hr hsize

theorem MsgCreate.read_hdr (h : Order) (buf : List UInt8) :
    ((MsgCreate.read h buf).1.ntoh h).hdr = recvHdr h buf ∧
      (MsgCreate.read h buf).2.length = buf.length - 148 := by
  simp [MsgCreate.read, MsgCreate.ntoh, recvHdr, Read.word]

theorem MsgOpen.read_hdr (h : Order) (buf : List UInt8) :
    ((MsgOpen.read h buf).1.ntoh h).hdr = recvHdr h buf ∧
      (MsgOpen.read h buf).2.length = buf.length - 44 := by
  simp [MsgOpen.read, MsgOpen.ntoh, recvHdr, Read.word]

section

variable (hbuf : buf.length = (recvHdr h buf).size.toNat)

include hbuf

theorem ntohCheckMsgCreate_contained :
    Contained (fun r => buf.length = (rpmemdObcProcessCreate r.1 r.2).msgSize)
      (rpmemdObcNtohCheckMsgCreate h buf) ↔ 148 ≤ buf.length := by
  rw [rpmemdObcNtohCheckMsgCreate, contained_bind, contained_cast]
  refine and_iff_left_of_imp fun hlen => ?_
  obtain ⟨hhdr, hrest⟩ := MsgCreate.read_hdr h buf
  generalize MsgCreate.read h buf = r at hhdr hrest ⊢
  rw [← hhdr] at hbuf
  rw [hbuf]
  exact checks_contained (by omega) id

theorem ntohCheckMsgOpen_contained :
    Contained (fun r => buf.length = (rpmemdObcProcessOpen r.1 r.2).msgSize)
      (rpmemdObcNtohCheckMsgOpen h buf) ↔ 44 ≤ buf.length := by
  rw [rpmemdObcNtohCheckMsgOpen, contained_bind, contained_cast]
  refine and_iff_left_of_imp fun hlen => ?_
  obtain ⟨hhdr, hrest⟩ := MsgOpen.read_hdr h buf
  generalize MsgOpen.read h buf = r at hhdr hrest ⊢
  rw [← hhdr] at hbuf
  rw [hbuf]
  exact checks_contained (by omega) id

/-- A message stays in its buffer if it is as long as its type relies on, and only then. -/
theorem processCb_contained_iff {type : BitVec 32} :
    Contained (fun cb => buf.length = cb.msgSize) (rpmemdObcProcessCb h type buf) ↔
      SizeOk type buf.length := by
  rw [rpmemdObcProcessCb, SizeOk]
  split_ifs with hcreate hopen hclose
  · rw [contained_map]
    exact ntohCheckMsgCreate_contained hbuf
  · rw [contained_map]
    exact ntohCheckMsgOpen_contained hbuf
  · rw [contained_map, rpmemdObcNtohCheckMsgClose, contained_bind, contained_cast]
    exact and_iff_right_of_imp fun hlen : buf.length = 16 => hlen.ge
  · rw [contained_map, rpmemdObcNtohCheckMsgSetAttr, contained_bind, contained_cast]
    exact and_iff_right_of_imp fun hlen : buf.length = 116 => hlen.ge

end

theorem recvHdr_take (h : Order) {input : List UInt8} (hn : 12 ≤ n) :
    recvHdr h (input.take n) = recvHdr h input := by
  have hfour : (input.take n).take 4 = input.take 4 := by
    rw [List.take_take, Nat.min_eq_left (by omega)]
  have height : ((input.take n).drop 4).take 8 = (input.drop 4).take 8 := by
    rw [List.drop_take, List.take_take, Nat.min_eq_left (by omega)]
  simp only [recvHdr, MsgHdr.read, Read.bind_apply, Read.pure_apply, Read.word, hfour, height]

theorem contained_checkMsgHdr {Q : Unit → Prop} :
    Contained Q (rpmemdObcCheckMsgHdr hdr) ↔ (rpmemdObcCheckMsgHdr hdr = .ok () → Q ()) := by
  have hne : rpmemdObcCheckMsgHdr hdr ≠ .error .outside := by
    have htrue : Contained (fun _ => True) (rpmemdObcCheckMsgHdr hdr) := by
      simp [rpmemdObcCheckMsgHdr]
    intro heq
    rw [heq] at htrue
    exact htrue rfl
  cases hcheck : rpmemdObcCheckMsgHdr hdr with
  | error e => simpa [Contained] using fun he => hne (hcheck.trans (congrArg _ he))
  | ok u => simp [Contained]

theorem size_of_checkMsgHdr (h : rpmemdObcCheckMsgHdr hdr = .ok ()) :
    12 ≤ hdr.size.toNat := by
  have hsize : Contained (fun _ => 12 ≤ hdr.size.toNat) (rpmemdObcCheckMsgHdr hdr) := by
    simp [rpmemdObcCheckMsgHdr]
  rw [h] at hsize
  exact hsize

/-- `rpmemd_obc_process` stays in the message it has allocated, and calls a callback only for a
message of the right length, exactly if a message that arrives is as long as its type relies on. -/
theorem process_contained_iff {malloc : BitVec 64 → Bool} {input : List UInt8} :
    Contained (fun cb => (recvHdr h input).size.toNat = cb.msgSize)
        (rpmemdObcProcess h malloc input) ↔
      (Arrives h malloc input → SizeOk (recvHdr h input).type (recvHdr h input).size.toNat) := by
  rw [rpmemdObcProcess, rpmemdObcMsgRecv, Arrives]
  split_ifs with hlen
  · exact iff_of_true Stop.noConfusion fun harrives => absurd harrives.1 (by omega)
  simp only [contained_bind, contained_check, contained_checkMsgHdr, contained_pure,
    decide_eq_true_eq, and_imp]
  rw [imp_iff_right (Nat.le_of_not_lt hlen)]
  refine imp_congr_right fun hhdr => imp_congr_right fun _ => imp_congr_right fun hle => ?_
  have hbuf : (input.take (recvHdr h input).size.toNat).length = (recvHdr h input).size.toNat :=
    List.length_take_of_le hle
  have hiff := @processCb_contained_iff _ h
    (hbuf.trans (congrArg (·.size.toNat) (recvHdr_take h (size_of_checkMsgHdr hhdr)).symm))
    (recvHdr h input).type
  rw [hbuf] at hiff
  exact hiff

end Pmdk.Rpmem
