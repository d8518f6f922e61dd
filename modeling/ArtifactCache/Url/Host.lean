import ArtifactCache.Url.Address
import ArtifactCache.Url.Problem
import ArtifactCache.Url.Punycode

/-!
# Hosts

Which texts can be the host of a URL: an address in brackets, an address of version 4, or a domain.
-/

namespace ArtifactCache.Url

/-- The characters that no host may contain. -/
def isForbidden (c : Char) : Bool :=
  c.toNat = 0 || "\t\n\r #/:<>?@[\\]^|".toList.contains c

/-- The characters that no domain may contain. -/
def isForbiddenInDomain (c : Char) : Bool :=
  c.toNat < 32 || c.toNat = 127 || c = '%' || isForbidden c

/-- The bytes of a text in which `%` with two hexadecimal digits stands for a byte. -/
def percentDecode : List Char → List UInt8
  | [] => []
  | '%' :: a :: b :: cs =>
    match Text.digitValue? 16 a, Text.digitValue? 16 b with
    | some x, some y => UInt8.ofNat (16 * x + y) :: percentDecode cs
    | _, _ => 37 :: percentDecode (a :: b :: cs)
  | c :: cs => (String.singleton c).toUTF8.toList ++ percentDecode cs

/-- Characters that a domain is written without. -/
def isIgnored (c : Char) : Bool :=
  let n := c.toNat
  n = 0xAD || n = 0x34F || n = 0x200B || n = 0x2060 || n = 0x2064 || n = 0xFEFF ||
    (0xFE00 ≤ n && n ≤ 0xFE0F)

/-- Characters that no domain may be written with. -/
def isDisallowed (c : Char) : Bool :=
  let n := c.toNat
  (0x80 ≤ n && n ≤ 0x9F) || (0x200C ≤ n && n ≤ 0x200F) || (0x2028 ≤ n && n ≤ 0x202E) ||
    (0x2061 ≤ n && n ≤ 0x2063) || (0x2065 ≤ n && n ≤ 0x206F) || (0xE000 ≤ n && n ≤ 0xF8FF) ||
    (0xFDD0 ≤ n && n ≤ 0xFDEF) || (0xFFF9 ≤ n && n ≤ 0xFFFD) || 0xFFFE ≤ n % 0x10000 ||
    0xE0000 ≤ n

/-- The plain character that is meant by a wide one, by one of the full stops and by a blank. -/
def plain (c : Char) : Char :=
  let n := c.toNat
  if 0xFF01 ≤ n ∧ n ≤ 0xFF5E then Char.ofNat (n - 0xFEE0)
  else if n = 0x3002 ∨ n = 0xFF61 then '.'
  else if 0x80 ≤ n ∧ Text.isBlank c then ' '
  else c

/-- Whether a label of a domain, in small letters, is one. -/
def isLabel (label : List Char) : Bool :=
  match label with
  | 'x' :: 'n' :: '-' :: '-' :: rest => rest.all (·.toNat < 128) && Punycode.isValid rest
  | _ => true

/-- The domain that is meant by a text, in plain characters where there are any. -/
def domain (cs : List Char) : Except Problem (List Char) :=
  match String.fromUTF8? ⟨(percentDecode cs).toArray⟩ with
  | none => .error .domain
  | some text =>
    let cs := (text.toList.filter fun c => !isIgnored c).map plain
    let cs := (Text.lowerAscii (String.ofList cs)).toList
    if cs.any fun c => isForbiddenInDomain c || isDisallowed c then .error .domain
    else if (Text.cut '.' cs).all isLabel then .ok cs
    else .error .domain

/-- Checks what stands in brackets, if the text starts with one. -/
def checkBrackets? (cs : List Char) : Option (Except Problem Unit) :=
  match cs with
  | '[' :: rest =>
    some <| match rest.reverse with
      | ']' :: back => if isAddress6 back.reverse then .ok () else .error .ipv6
      | _ => .error .ipv6
  | _ => none

/-- Checks a host that is an address or a domain. -/
def checkHost (cs : List Char) : Except Problem Unit :=
  match checkBrackets? cs with
  | some result => result
  | none => do
    let name ← domain cs
    if name.isEmpty then .error .emptyHost
    else if endsInNumber name && !isAddress4 name then .error .ipv4
    else .ok ()

/-- Checks a host that is not further understood. -/
def checkOpaqueHost (cs : List Char) : Except Problem Unit :=
  match checkBrackets? cs with
  | some result => result
  | none => if cs.any isForbidden then .error .domainCharacter else .ok ()

end ArtifactCache.Url
