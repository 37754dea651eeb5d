import SdnQuagga.Stream

/-!
# Prefixes

`lib/prefix.h`: an address family, an address and a prefix length that
never exceeds the address. Addresses are numbers; their bytes in memory
are the big-endian image.
-/

namespace SdnQuagga

open SdnQuagga.Stream

/-- The address of a prefix, `AF_INET` or `AF_INET6`. -/
inductive Addr where
  | inet (addr : UInt32)
  | inet6 (addr : BitVec 128)
deriving DecidableEq, Repr

namespace Addr

def bytes : Addr → List UInt8
  | inet addr => be32 addr
  | inet6 addr => be128 addr

/-- `IPV4_MAX_BITLEN` and `IPV6_MAX_BITLEN`. -/
def maxBitlen : Addr → Nat
  | inet _ => 32
  | inet6 _ => 128

end Addr

/-- `struct prefix`. -/
structure Prefix where
  prefixlen : Nat
  addr : Addr
  prefixlen_le : prefixlen ≤ addr.maxBitlen
deriving DecidableEq, Repr

/-- `PSIZE`: the bytes a prefix length covers. -/
def psize (prefixlen : Nat) : Nat := (prefixlen + 7) / 8

/-- `stream_put_prefix`. The check asks for the address bytes only; the
copy after the length byte is not checked again. -/
def streamPutPrefix (p : Prefix) : StreamM Nat := do
  if (← get).writeable < psize p.prefixlen then return 0
  else
    putc (UInt8.ofNat p.prefixlen)
    if (← get).writeable < psize p.prefixlen then throw .outOfBounds
    else
      putBytes (p.addr.bytes.take (psize p.prefixlen))
      return psize p.prefixlen

end SdnQuagga
