import ToolScript.Digest.Sha256

/-! # Message authentication by a hash

    A code for a message under a key, made by hashing twice with the key mixed in each time. -/

namespace ToolScript.Digest

/-- A way to authenticate messages: a key and a message give a code. -/
abbrev Mac := Bytes → Bytes → Bytes

/-- A key of one block: a longer one is hashed, a shorter one filled with zeros. -/
def blockKey (key : Bytes) : Bytes :=
  let key := if key.length > 64 then sha256 key else key
  key ++ List.replicate (64 - key.length) 0

def hmacSha256 : Mac := fun key message =>
  let key := blockKey key
  let inner := sha256 (key.map (· ^^^ 0x36) ++ message)
  sha256 (key.map (· ^^^ 0x5c) ++ inner)

/-- The bytes of a text in UTF-8. -/
def utf8 (s : String) : Bytes :=
  s.toUTF8.toList

end ToolScript.Digest
