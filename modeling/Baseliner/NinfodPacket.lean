import Mathlib.Data.List.Basic
import Mathlib.Order.Basic
import Baseliner.ByteOrder

/-! What `ninfod` keeps of one Node Information query: addresses as four words
in network order, the header shared by query and reply, and the packet context
that the subject checks and the reply functions work on. Flag constants are
those of a little-endian host. -/

namespace Baseliner.Ninfod

open ByteOrder

/-- A `struct in6_addr`, each `s6_addr32` word read in network order. -/
structure In6Addr where
  w0 : UInt32
  w1 : UInt32
  w2 : UInt32
  w3 : UInt32
  deriving DecidableEq, Repr

namespace In6Addr

def isUnspecified (a : In6Addr) : Bool := a.w0 = 0 ∧ a.w1 = 0 ∧ a.w2 = 0 ∧ a.w3 = 0

def isLoopback (a : In6Addr) : Bool := a.w0 = 0 ∧ a.w1 = 0 ∧ a.w2 = 0 ∧ a.w3 = 1

def isV4compat (a : In6Addr) : Bool := a.w0 = 0 ∧ a.w1 = 0 ∧ a.w2 = 0 ∧ 1 < a.w3

def isV4mapped (a : In6Addr) : Bool := a.w0 = 0 ∧ a.w1 = 0 ∧ a.w2 = 0xffff

def isLinklocal (a : In6Addr) : Bool := a.w0 &&& 0xffc00000 = 0xfe800000

def isSitelocal (a : In6Addr) : Bool := a.w0 &&& 0xffc00000 = 0xfec00000

def isMulticast (a : In6Addr) : Bool := a.w0 &&& 0xff000000 = 0xff000000

def isMcLinklocal (a : In6Addr) : Bool := a.isMulticast ∧ a.w0 &&& 0x000f0000 = 0x00020000

end In6Addr

abbrev Memory := Int → UInt8

def be16 (m : Memory) (i : Int) : UInt16 := load .big (m i) (m (i + 1))

def be32 (m : Memory) (i : Int) : UInt32 := long (be16 m i) (be16 m (i + 2))

/-- A 16-bit field as a little-endian host loads it. -/
def load16 (m : Memory) (i : Int) : UInt16 := load .little (m i) (m (i + 1))

def in6At (m : Memory) (i : Int) : In6Addr :=
  ⟨be32 m i, be32 m (i + 4), be32 m (i + 8), be32 m (i + 12)⟩

def In6Addr.bytes (a : In6Addr) : List UInt8 :=
  storedLong a.w0 ++ storedLong a.w1 ++ storedLong a.w2 ++ storedLong a.w3

def ICMP6_NI_REPLY : UInt8 := 140

def ICMP6_NI_SUBJ_IPV6 : UInt8 := 0
def ICMP6_NI_SUBJ_FQDN : UInt8 := 1
def ICMP6_NI_SUBJ_IPV4 : UInt8 := 2

def ICMP6_NI_SUCCESS : UInt8 := 0
def ICMP6_NI_REFUSED : UInt8 := 1
def ICMP6_NI_UNKNOWN : UInt8 := 2

def NI_QTYPE_NOOP : UInt16 := 0
def NI_QTYPE_SUPTYPES : UInt16 := 1
def NI_QTYPE_DNSNAME : UInt16 := 2
def NI_QTYPE_NODEADDR : UInt16 := 3
def NI_QTYPE_IPV4ADDR : UInt16 := 4

def NI_SUPTYPE_FLAG_COMPRESS : UInt32 := 0x0100
def NI_NODEADDR_FLAG_TRUNCATE : UInt32 := 0x0100
def NI_NODEADDR_FLAG_ALL : UInt32 := 0x0200
def NI_NODEADDR_FLAG_COMPAT : UInt32 := 0x0400
def NI_NODEADDR_FLAG_LINKLOCAL : UInt32 := 0x0800
def NI_NODEADDR_FLAG_SITELOCAL : UInt32 := 0x1000
def NI_NODEADDR_FLAG_GLOBAL : UInt32 := 0x2000
def NI_IPV4ADDR_FLAG_TRUNCATE : UInt32 := NI_NODEADDR_FLAG_TRUNCATE
def NI_IPV4ADDR_FLAG_ALL : UInt32 := NI_NODEADDR_FLAG_ALL

/-- `sizeof(struct icmp6_nodeinfo)`. -/
def NODEINFO_SIZE : Nat := 16

/-- The smallest IPv6 MTU less the IPv6 header. -/
def MAX_REPLY_SIZE : Nat := 1280 - 40

/-- `struct icmp6_nodeinfo`; 16-bit fields hold what the host loads from them. -/
structure Nodeinfo where
  niType : UInt8
  niCode : UInt8
  niCksum : UInt16
  niQtype : UInt16
  niFlags : UInt16
  niNonce : List UInt8
  deriving DecidableEq, Repr

def Nodeinfo.bytes (h : Nodeinfo) : List UInt8 :=
  [h.niType, h.niCode] ++ stored .little h.niCksum ++ stored .little h.niQtype ++
    stored .little h.niFlags ++ h.niNonce

structure Pktinfo where
  ipi6Addr : In6Addr
  ipi6Ifindex : Nat
  deriving DecidableEq, Repr

/-- `struct packetcontext`. The received query is the first `querylen` bytes at
`query`; negative offsets are what the context holds before it. -/
structure PacketContext where
  addr : In6Addr
  pktinfo : Pktinfo
  query : Memory
  querylen : Nat
  reply : Nodeinfo
  replydata : Option (List UInt8)
  replydatalen : Int
  delay : Nat

/-- What a function with `CHECKANDFILL_ARGS` leaves behind: its return value, the
packet context, and what stands at `subj_if`. -/
structure Checked where
  rc : Int
  p : PacketContext
  subjIf : Option Nat

end Baseliner.Ninfod
