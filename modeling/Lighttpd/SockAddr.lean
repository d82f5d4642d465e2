import Lighttpd.Lib.CString

/-!
# Socket addresses

`sock_addr_is_addr_eq_bits` compares the leading bits of two addresses. An IPv4 address
is a 32-bit number in host order, which stands for the same mask and comparison as the
network order of the source; an IPv6 address is its sixteen bytes.
-/

namespace Lighttpd

open CString

/-- `sock_addr`. -/
inductive SockAddr
  | inet (addr : BitVec 32) (port : ℕ)
  | inet6 (addr : Vector UInt8 16) (port : ℕ)
  | unix (path : Bytes)
  deriving DecidableEq

/-- The address functions of the C library: `inet_aton`, `inet_pton` for IPv6, and
`inet_ntop` for both families. -/
structure AddrLib where
  inetAton : Bytes → Option (BitVec 32)
  inetPton6 : Bytes → Option (Vector UInt8 16)
  inetNtop4 : BitVec 32 → Bytes
  inetNtop6 : Vector UInt8 16 → Bytes

/-- The address functions on strings that are no addresses. -/
def AddrLib.noAddress : AddrLib where
  inetAton _ := none
  inetPton6 _ := none
  inetNtop4 _ := []
  inetNtop6 _ := []

/-- `IN6_IS_ADDR_V4MAPPED`. -/
def isV4Mapped (a : Vector UInt8 16) : Bool :=
  a.toList.take 12 = List.replicate 10 0 ++ [255, 255]

/-- The IPv4 address in the last four bytes. -/
def v4Part (a : Vector UInt8 16) : BitVec 32 :=
  BitVec.ofNat 32 ((a.toList.drop 12).foldl (fun n b => 256 * n + b.toNat) 0)

/-- The loop that compares two IPv6 addresses byte by byte. -/
def addrEqBitsLoop (bits : ℕ) : Bytes → Bytes → Bool
  | c :: cs, d :: ds =>
    let isMatch := if 8 ≤ bits then c = d else c.toNat >>> (8 - bits) = d.toNat >>> (8 - bits)
    if isMatch ∧ 8 < bits then addrEqBitsLoop (bits - 8) cs ds else isMatch
  | _, _ => true

/-- `sock_addr_is_addr_eq_bits`. -/
def sockAddrIsAddrEqBits (a b : SockAddr) (bits : ℕ) : Bool :=
  match a with
  | .inet x _ =>
    let bits := min bits 32
    let nm : BitVec 32 := ~~~((1#32 <<< (32 - if bits ≠ 0 then bits else 32)) - 1)
    match b with
    | .inet y _ => x &&& nm = y &&& nm
    | .inet6 y _ => isV4Mapped y && (x &&& nm = v4Part y &&& nm)
    | .unix _ => false
  | .inet6 x _ =>
    let bits := min bits 128
    match b with
    | .inet6 y _ => addrEqBitsLoop bits x.toList y.toList
    | .inet y _ =>
      let nm : BitVec 32 :=
        if bits < 128 then ~~~(BitVec.allOnes 32 >>> (if 96 < bits then bits - 96 else 0))
        else BitVec.allOnes 32
      isV4Mapped x && (v4Part x &&& nm = y &&& nm)
    | .unix _ => false
  | .unix _ => false

end Lighttpd
