import PlatformLink.Archive.Crc32
import PlatformLink.Archive.Fields

/-! # Writing archives

An archive is a list of named entries. `encode` writes one without compression: every entry
behind a header of its own, then the directory of all headers, then the end record.
-/

namespace PlatformLink.Archive
set_option autoImplicit false

abbrev Item := String × Bytes

/-- The fields that the two headers of an entry share: version, flags for UTF-8 names, stored,
the earliest date, checksum, both sizes, and the lengths of the name and of the extra field. -/
def sharedFields (name : Bytes) (data : Bytes) : Bytes :=
  le16 20 ++ le16 0x0800 ++ le16 0 ++ le16 0 ++ le16 0x21 ++
    le32 (Crc32.checksum data).toNat ++ le32 data.length ++ le32 data.length ++
    le16 name.length ++ le16 0

def localHeader (name data : Bytes) : Bytes := localMark ++ sharedFields name data ++ name

/-- The header in the directory of an entry that starts at `offset`. -/
def directoryHeader (offset : Nat) (name data : Bytes) : Bytes :=
  headerMark ++ le16 0x0314 ++ sharedFields name data ++ le16 0 ++ le16 0 ++ le16 0 ++
    le32 0x81a40000 ++ le32 offset ++ name

/-- The end record of `count` headers of `size` octets that start at `offset`. -/
def endRecord (count size offset : Nat) : Bytes :=
  endMark ++ le16 0 ++ le16 0 ++ le16 count ++ le16 count ++ le32 size ++ le32 offset ++ le16 0

def nameOctets (name : String) : Bytes := name.toUTF8.toList

/-- The parts of an archive whose next entry starts at `offset`: entries and headers, both in
reverse. -/
def partsFrom (offset : Nat) (entries headers : List Bytes) : List Item → List Bytes × List Bytes × Nat
  | [] => (entries, headers, offset)
  | (name, data) :: rest =>
    let name := nameOctets name
    let entry := localHeader name data ++ data
    partsFrom (offset + entry.length) (entry :: entries) (directoryHeader offset name data :: headers)
      rest

def encode (items : List Item) : Bytes :=
  let (entries, headers, offset) := partsFrom 0 [] [] items
  let directory := headers.reverse.flatten
  entries.reverse.flatten ++ directory ++ endRecord items.length directory.length offset

end PlatformLink.Archive
