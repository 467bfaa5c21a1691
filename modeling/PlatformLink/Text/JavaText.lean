import PlatformLink.Text.Utf8

/-! # Text accepted by the second grammar

The second grammar takes a text constant when it is UTF-8, or else when it is Java's form of
CESU-8: NUL in two octets, shortest forms only, and characters above U+FFFF as a pair of
three-octet surrogates.
-/

namespace PlatformLink.JavaText
set_option autoImplicit false

open Utf8 (within isContinuation isTwoLead isThreeLead isUtf8)

/-- Whether some octets are Java's form of CESU-8. -/
def isCesu8 : Bytes → Bool
  | [] => true
  | a :: rest =>
    if a == 0 then false
    else if a.toNat < 0x80 then isCesu8 rest
    else if a == 0xc0 then
      match rest with
      | b :: rest => b == 0x80 && isCesu8 rest
      | [] => false
    else if isTwoLead a then
      match rest with
      | b :: rest => isContinuation b && isCesu8 rest
      | [] => false
    else
      match rest with
      | b :: c :: rest =>
        if isThreeLead a b then isContinuation c && isCesu8 rest
        else if a == 0xed && within 0xa0 0xaf b then
          match rest with
          | d :: e :: f :: rest =>
            isContinuation c && d == 0xed && within 0xb0 0xbf e && isContinuation f && isCesu8 rest
          | _ => false
        else false
      | _ => false

/-- Whether some octets are a text of the second grammar. -/
def accepts (octets : Bytes) : Bool := isUtf8 octets || isCesu8 octets

end PlatformLink.JavaText
