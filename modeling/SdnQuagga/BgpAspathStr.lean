import SdnQuagga.BgpAspath
import SdnQuagga.Hash

/-!
# The string of an AS path

`aspath_make_str_count` and the key that is made of it.
-/

namespace SdnQuagga

/-- `aspath_delimiter_char`, start and end. -/
def aspathDelimiters : SegType → List Char × List Char
  | .set => (['\x7b'], ['\x7d'])
  | .confedSet => (['['], [']'])
  | .confedSequence => (['('], [')'])
  | .sequence => ([], [])

/-- What stands between two ASNs of a segment. -/
def aspathSeparator (type : SegType) : Char := if type.isSet then ',' else ' '

/-- One segment of the string. -/
def assegmentStr (seg : Assegment) : List Char :=
  (aspathDelimiters seg.type).1 ++ (List.intersperse [aspathSeparator seg.type]
      (seg.as.map fun asn => Nat.toDigits 10 asn.toNat)).flatten ++ (aspathDelimiters seg.type).2

def aspathMakeStrCount (segs : List Assegment) : List Char :=
  (List.intersperse [' '] (segs.map assegmentStr)).flatten

/-- The key of `aspath_key_make` for the string of a path. -/
def aspathStrKey (str : List Char) : UInt32 :=
  Jhash.hash (str.map fun c => UInt8.ofNat c.toNat) 2334325

end SdnQuagga
