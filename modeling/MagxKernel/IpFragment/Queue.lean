import Mathlib.Data.List.TakeWhile
import MagxKernel.Lib.Spans

namespace MagxKernel.IpFragment

abbrev Byte := UInt8

/-- The values of `ip_summed`. -/
inductive IpSummed where
  | checksumNone
  | checksumHw
  | checksumUnnecessary
deriving DecidableEq

/-- What makes fragments belong to one datagram. -/
structure Key where
  user : Nat
  saddr : Nat
  daddr : Nat
  id : Nat
  protocol : Nat
deriving DecidableEq

/-- A fragment as it reaches `ip_defrag`, cut to the 16 bits of its `tot_len`. -/
structure Packet where
  key : Key
  /-- `frag_off` in host order: flags and offset -/
  fragOff : Nat
  ihl : Fin 16
  /-- header and payload -/
  bytes : List Byte
  ipSummed : IpSummed
  csum : Nat
  truesize : Nat
  /-- `ifindex` of `skb->dev` -/
  dev : Option Nat
  stamp : Nat
  short : bytes.length ≤ 65535
deriving DecidableEq

/-- A fragment in a queue. `data` is `nh.raw + pulled`. -/
structure Skb where
  nhRaw : List Byte
  pulled : Nat
  ihl : Nat
  /-- `FRAG_CB(skb)->offset` -/
  offset : Nat
  ipSummed : IpSummed
  csum : Nat
  truesize : Nat
  stamp : Nat
deriving DecidableEq

/-- The bits of `last_in`. -/
structure LastIn where
  complete : Bool
  firstIn : Bool
  lastIn : Bool
deriving DecidableEq

structure Ipq where
  key : Key
  lastIn : LastIn
  fragments : List Skb
  len : Int
  meat : Int
  iif : Nat
  stamp : Nat
deriving DecidableEq

/-- Which allocations fail while one fragment is handled. -/
structure Faults where
  queue : Bool
  pullHeader : Bool
  trim : Bool
  pullPrev : Bool
  pullNext : Bool
  reasm : Bool
deriving DecidableEq

def Packet.offset (packet : Packet) : Nat := (packet.fragOff &&& 0x1FFF) <<< 3

/-- `IP_MF`. -/
def Packet.moreFragments (packet : Packet) : Bool := packet.fragOff &&& 0x2000 != 0

def Packet.ihlen (packet : Packet) : Nat := packet.ihl.val * 4

def Packet.fragEnd (packet : Packet) : Int :=
  packet.offset + packet.bytes.length - packet.ihlen

/-- What the fragment says about one place of the datagram. -/
def Packet.byteAt (packet : Packet) (place : Nat) : Option Byte :=
  if packet.offset ≤ place then (packet.bytes.drop packet.ihlen)[place - packet.offset]? else none

def Packet.skb (packet : Packet) : Skb where
  nhRaw := packet.bytes
  pulled := 0
  ihl := packet.ihl
  offset := packet.offset
  ipSummed := packet.ipSummed
  csum := packet.csum
  truesize := packet.truesize
  stamp := packet.stamp

def Skb.data (skb : Skb) : List Byte := skb.nhRaw.drop skb.pulled

def Skb.len (skb : Skb) : Nat := skb.data.length

/-- A checksum over more than what is left is of no use. -/
def Skb.demote (skb : Skb) : Skb :=
  if skb.ipSummed = .checksumUnnecessary then skb else { skb with ipSummed := .checksumNone }

/-- The fragment after its head was pulled: another place, another checksum. -/
def Skb.moveTo (skb : Skb) (offset : Nat) : Skb := { skb.demote with offset := offset }

def pskbPull (fails : Bool) (skb : Skb) (len : Nat) : Option Skb :=
  if skb.len < len ∨ fails then none else some { skb with pulled := skb.pulled + len }

def pskbTrim (fails : Bool) (skb : Skb) (len : Nat) : Option Skb :=
  if len < skb.len then
    if fails then none else some { skb with nhRaw := skb.nhRaw.take (skb.pulled + len) }
  else some skb

def ipFragCreate (key : Key) : Ipq where
  key := key
  lastIn := ⟨false, false, false⟩
  fragments := []
  len := 0
  meat := 0
  iif := 0
  stamp := 0

def ipqKill (qp : Ipq) : Ipq :=
  { qp with lastIn := { qp.lastIn with complete := true } }

/-- The end of the fragment, and what it tells about the datagram's length. -/
def placeEnd (qp : Ipq) (packet : Packet) : Option (Ipq × Int) :=
  let fin := packet.fragEnd
  if packet.moreFragments then
    let fin := fin - fin % 8
    if qp.len < fin then
      if qp.lastIn.lastIn then none else some ({ qp with len := fin }, fin)
    else some (qp, fin)
  else
    if fin < qp.len ∨ qp.lastIn.lastIn ∧ fin ≠ qp.len then none
    else some ({ qp with len := fin, lastIn := { qp.lastIn with lastIn := true } }, fin)

/-- The payload of the fragment up to `fin`. -/
def cutOut (packet : Packet) (fin : Int) (faults : Faults) : Option Skb :=
  if fin = packet.offset then none
  else
    let skb := if fin = packet.fragEnd then packet.skb else packet.skb.demote
    (pskbPull faults.pullHeader skb packet.ihlen).bind fun skb =>
      pskbTrim faults.trim skb (fin - packet.offset).toNat

/-- Overlap with the preceding fragment is taken off the new one. -/
def alignToPrev (fin : Int) (fails : Bool) (skb : Skb) : Option Skb → Option Skb
  | none => some skb
  | some prev =>
      let i : Int := (prev.offset + prev.len : Nat) - skb.offset
      if 0 < i then
        if fin ≤ skb.offset + i then none
        else
          (pskbPull fails skb i.toNat).map fun pulled => pulled.moveTo (skb.offset + i.toNat)
      else some skb

/-- Where the loop over the following fragments ends. -/
structure Eaten where
  next : List Skb
  meat : Int
  fragMem : Int
  failed : Bool
deriving DecidableEq

/-- Fragments that the new one covers are dropped, the next one loses its head. -/
def eatNext (fin : Int) (fails : Bool) : List Skb → Int → Int → Eaten
  | [], meat, fragMem => ⟨[], meat, fragMem, false⟩
  | next :: rest, meat, fragMem =>
      if next.offset < fin then
        let i := fin - next.offset
        if i < next.len then
          match pskbPull fails next i.toNat with
          | none => ⟨next :: rest, meat, fragMem, true⟩
          | some pulled =>
              ⟨pulled.moveTo (next.offset + i.toNat) :: rest, meat - i, fragMem, false⟩
        else eatNext fin fails rest (meat - next.len) (fragMem - next.truesize)
      else ⟨next :: rest, meat, fragMem, false⟩

/-- What `ip_frag_queue` leaves, and whether it took the fragment. -/
structure Outcome where
  qp : Ipq
  fragMem : Int
  queued : Bool
deriving DecidableEq

/-- The part of `ip_frag_queue` that works on the chain of fragments. -/
def insertFragment (qp : Ipq) (fragMem : Int) (dev : Option Nat) (skb : Skb) (fin : Int)
    (faults : Faults) : Outcome :=
  let before := qp.fragments.takeWhile fun next => next.offset < skb.offset
  let after := qp.fragments.dropWhile fun next => next.offset < skb.offset
  match alignToPrev fin faults.pullPrev skb before.getLast? with
  | none => ⟨qp, fragMem, false⟩
  | some skb =>
      let eaten := eatNext fin faults.pullNext after qp.meat fragMem
      if eaten.failed then
        ⟨{ qp with
            fragments := before ++ eaten.next
            meat := eaten.meat }, eaten.fragMem, false⟩
      else
        ⟨{ qp with
            fragments := before ++ skb :: eaten.next
            iif := dev.getD qp.iif
            stamp := skb.stamp
            meat := eaten.meat + skb.len
            lastIn := { qp.lastIn with firstIn := qp.lastIn.firstIn || skb.offset == 0 } },
          eaten.fragMem + skb.truesize, true⟩

def ipFragQueue (qp : Ipq) (fragMem : Int) (packet : Packet) (faults : Faults) : Outcome :=
  if qp.lastIn.complete then ⟨qp, fragMem, false⟩
  else
    match placeEnd qp packet with
    | none => ⟨qp, fragMem, false⟩
    | some (qp, fin) =>
        match cutOut packet fin faults with
        | none => ⟨qp, fragMem, false⟩
        | some skb => insertFragment qp fragMem packet.dev skb fin faults

/-- When `ip_defrag` starts the reassembly. -/
def Ipq.ready (qp : Ipq) : Bool :=
  qp.lastIn = ⟨false, true, true⟩ ∧ qp.meat = qp.len

/-- The reassembled datagram, `head` on return. -/
structure Datagram where
  bytes : List Byte
  ihl : Nat
  fragOff : Nat
  totLen : Nat
  ipSummed : IpSummed
  csum : Nat
  truesize : Nat
  dev : Option Nat
  stamp : Nat
deriving DecidableEq

def csumAdd (csum addend : Nat) : Nat :=
  let sum := (csum + addend) % 2 ^ 32
  if sum < addend then (sum + 1) % 2 ^ 32 else sum

/-- One turn of the loop that adds a fragment to the head's `frag_list`. -/
def glue (head : Datagram) (fp : Skb) : Datagram :=
  { head with
    bytes := head.bytes ++ fp.data
    ipSummed := if head.ipSummed ≠ fp.ipSummed then .checksumNone else head.ipSummed
    csum := if head.ipSummed = fp.ipSummed ∧ head.ipSummed = .checksumHw then
      csumAdd head.csum fp.csum else head.csum
    truesize := head.truesize + fp.truesize }

def headDatagram (qp : Ipq) (dev : Option Nat) (totLen : Nat) (head : Skb) : Datagram where
  -- `skb_push` takes `data` back to the network header
  bytes := head.nhRaw
  ihl := head.ihl
  fragOff := 0
  totLen := totLen
  ipSummed := head.ipSummed
  csum := head.csum
  truesize := head.truesize
  dev := dev
  stamp := qp.stamp

/-- What `ip_frag_reasm` leaves and returns. -/
structure Reassembled where
  qp : Ipq
  fragMem : Int
  datagram : Option Datagram
deriving DecidableEq

/-- The head of an empty chain would be dereferenced: no result. -/
def ipFragReasm (qp : Ipq) (fragMem : Int) (dev : Option Nat) (nomem : Bool) :
    Option Reassembled :=
  let qp := ipqKill qp
  match qp.fragments with
  | [] => none
  | head :: rest =>
      let len : Int := (head.ihl * 4 : Nat) + qp.len
      if 65535 < len then some ⟨qp, fragMem, none⟩
      else if nomem then some ⟨qp, fragMem, none⟩
      else
        some ⟨{ qp with fragments := [] }, fragMem - (Spans.total Skb.truesize qp.fragments : Nat),
          some (rest.foldl glue (headDatagram qp dev len.toNat head))⟩

/-- What is done to one queue under its lock before it is reassembled. -/
inductive QueueOp where
  | ipFragQueue (packet : Packet) (faults : Faults)
  /-- `ip_expire` or `ip_evictor` -/
  | ipqKill
deriving DecidableEq

def QueueOp.step (qp : Ipq) : QueueOp → Ipq
  | .ipFragQueue packet faults => (IpFragment.ipFragQueue qp 0 packet faults).qp
  | .ipqKill => IpFragment.ipqKill qp

def QueueOp.packets : QueueOp → List Packet
  | .ipFragQueue packet _ => [packet]
  | .ipqKill => []

end MagxKernel.IpFragment
