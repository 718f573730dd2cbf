import Pmdk.Rpmem.Obc

/-!
# Persist messages

A lane of the in-band connection receives a persist message in its buffer. Its address and its size
are added before they are compared with the pool, and its size is not compared with what was
received, so a message may name a range around the end of the address space or data that never came.
-/

namespace Pmdk.Rpmem

open Endian

def RPMEM_DEEP_PERSIST : BitVec 32 := 1

def RPMEM_PERSIST_SEND : BitVec 32 := 2

def RPMEM_PERSIST_MASK : BitVec 32 := 3

/-- `rpmem_msg_persist`, of 24 bytes, in the order of the host. -/
structure MsgPersist where
  flags : BitVec 32
  lane : BitVec 32
  addr : BitVec 64
  size : BitVec 64

def MsgPersist.read (h : Order) : Read MsgPersist := do
  return { flags := ← .word h 4, lane := ← .word h 4, addr := ← .word h 8, size := ← .word h 8 }

structure Fip where
  addr : BitVec 64
  size : BitVec 64
  nlanes : BitVec 32
  mapped : addr.toNat + size.toNat < 2 ^ 64

/-- A call that touches `size` bytes of the pool from `addr`. -/
inductive Access where
  | deep_persist (addr size : Nat)
  /-- The data begins behind the structure. -/
  | memcpy_persist (addr size : Nat)
  | persist (addr size : Nat)
  deriving DecidableEq

def rpmemdFipCheckPmsg (fip : Fip) (pmsg : MsgPersist) : Bool :=
  pmsg.lane < fip.nlanes ∧ fip.addr ≤ pmsg.addr ∧ pmsg.addr + pmsg.size ≤ fip.addr + fip.size

/-- What `rpmemd_fip_process_recv` does with the buffer of the lane, if it returns no error before.
-/
def rpmemdFipProcessRecv (h : Order) (fip : Fip) (buf : List UInt8) : Option Access :=
  let pmsg := (MsgPersist.read h buf).1
  if rpmemdFipCheckPmsg fip pmsg then
    let mode := pmsg.flags &&& RPMEM_PERSIST_MASK
    if mode = RPMEM_DEEP_PERSIST then some (.deep_persist pmsg.addr.toNat pmsg.size.toNat)
    else if mode = RPMEM_PERSIST_SEND then some (.memcpy_persist pmsg.addr.toNat pmsg.size.toNat)
    else some (.persist pmsg.addr.toNat pmsg.size.toNat)
  else none

/-- The range lies in the pool, and the data among the `received` bytes of the buffer. -/
def Access.Inside (fip : Fip) (received : Nat) : Access → Prop
  | .deep_persist addr size | .persist addr size =>
    fip.addr.toNat ≤ addr ∧ addr + size ≤ fip.addr.toNat + fip.size.toNat
  | .memcpy_persist addr size =>
    fip.addr.toNat ≤ addr ∧ addr + size ≤ fip.addr.toNat + fip.size.toNat ∧
      (0 < size → 24 + size ≤ received)

def MsgPersist.Sound (pmsg : MsgPersist) (received : Nat) : Prop :=
  pmsg.addr.toNat + pmsg.size.toNat < 2 ^ 64 ∧
    (pmsg.flags &&& RPMEM_PERSIST_MASK = RPMEM_PERSIST_SEND → 0 < pmsg.size.toNat →
      24 + pmsg.size.toNat ≤ received)

theorem range_inside_iff {fip : Fip} {pmsg : MsgPersist} (hcheck : rpmemdFipCheckPmsg fip pmsg) :
    fip.addr.toNat ≤ pmsg.addr.toNat ∧
        pmsg.addr.toNat + pmsg.size.toNat ≤ fip.addr.toNat + fip.size.toNat ↔
      pmsg.addr.toNat + pmsg.size.toNat < 2 ^ 64 := by
  have hmapped := fip.mapped
  rw [rpmemdFipCheckPmsg, decide_eq_true_eq] at hcheck
  obtain ⟨-, hlow, hhigh⟩ := hcheck
  have hlow : fip.addr.toNat ≤ pmsg.addr.toNat := hlow
  have hhigh : (pmsg.addr + pmsg.size).toNat ≤ (fip.addr + fip.size).toNat := hhigh
  rw [BitVec.toNat_add, BitVec.toNat_add, Nat.mod_eq_of_lt hmapped] at hhigh
  constructor
  · exact fun h => lt_of_le_of_lt h.2 hmapped
  · intro h
    rw [Nat.mod_eq_of_lt h] at hhigh
    exact ⟨hlow, hhigh⟩

theorem processRecv_inside_iff {h : Order} {fip : Fip} {buf : List UInt8} {received : Nat} :
    (∀ a ∈ rpmemdFipProcessRecv h fip buf, a.Inside fip received) ↔
      (rpmemdFipCheckPmsg fip (MsgPersist.read h buf).1 →
        (MsgPersist.read h buf).1.Sound received) := by
  rw [rpmemdFipProcessRecv, MsgPersist.Sound]
  generalize (MsgPersist.read h buf).1 = pmsg
  by_cases hcheck : rpmemdFipCheckPmsg fip pmsg
  swap
  · simp [hcheck]
  have hrange := range_inside_iff hcheck
  by_cases hdeep : pmsg.flags &&& RPMEM_PERSIST_MASK = RPMEM_DEEP_PERSIST
  · have hne : RPMEM_DEEP_PERSIST ≠ RPMEM_PERSIST_SEND := by decide
    simp [Access.Inside, hcheck, hdeep, hne, hrange]
  by_cases hsend : pmsg.flags &&& RPMEM_PERSIST_MASK = RPMEM_PERSIST_SEND
  · have hne : RPMEM_PERSIST_SEND ≠ RPMEM_DEEP_PERSIST := by decide
    simp only [hcheck, hsend, hne, if_true, if_false, Option.mem_some_iff, forall_eq',
      Access.Inside, true_implies]
    rw [← and_assoc, hrange]
  · simp [Access.Inside, hcheck, hdeep, hsend, hrange]

/-- What the daemon reads of a request lies in the message, and what a persist message makes it
touch lies in the pool and in what was received, exactly if requests are as long as their types
rely on, and the persist messages that pass the check are sound. -/
theorem daemon_inside_iff (h malloc input fip buf received) :
    (Contained (fun cb => (recvHdr h input).size.toNat = cb.msgSize)
          (rpmemdObcProcess h malloc input) ↔
        (Arrives h malloc input →
          SizeOk (recvHdr h input).type (recvHdr h input).size.toNat)) ∧
      ((∀ a ∈ rpmemdFipProcessRecv h fip buf, a.Inside fip received) ↔
        (rpmemdFipCheckPmsg fip (MsgPersist.read h buf).1 →
          (MsgPersist.read h buf).1.Sound received)) :=
  ⟨process_contained_iff, processRecv_inside_iff⟩

/-- A close message that is as long as its header, and a persist message whose range wraps around.
-/
theorem daemon_not_inside :
    (¬ Contained (fun cb => 12 = cb.msgSize)
        (rpmemdObcProcess .little (fun _ => true) [0, 0, 0, 5, 0, 0, 0, 0, 0, 0, 0, 12])) ∧
      ¬ ∀ a ∈ rpmemdFipProcessRecv .little ⟨4096, 4096, 1, by decide⟩
          ([0, 0, 0, 0, 0, 0, 0, 0, 0, 32, 0, 0, 0, 0, 0, 0] ++
            [0, 240, 255, 255, 255, 255, 255, 255]), a.Inside ⟨4096, 4096, 1, by decide⟩ 24 := by
  constructor
  · have houtside : rpmemdObcProcess .little (fun _ => true)
        [0, 0, 0, 5, 0, 0, 0, 0, 0, 0, 0, 12] = .error .outside := by decide
    rw [houtside]
    exact fun h => h rfl
  · intro h
    have haccess := h (.persist 8192 (2 ^ 64 - 4096)) (by decide)
    exact absurd haccess.2 (by decide)

end Pmdk.Rpmem
