import ToolScript.Proofs.Security.Verdict

/-! # The handshake of a turn from end to end

    The identifier of a turn is the one that the first two bytes of its code write in digits. A reply that follows
    the instructions of the turn has its script in the tags of the identifier. The block found first is then this one,
    unless an opening tag stands before it, and it runs in its own turn and in no other. -/

namespace ToolScript.Security
open Digest Text Markup

/-! ### Codes and digits -/

/-- Bytes in upper-case hexadecimal digits, two for each. -/
def hexText (bytes : Bytes) : String :=
  String.ofList (bytes.flatMap fun b => (hexDigits 2 b.toNat).map Char.toUpper)

/-- The first two bytes of the code of a turn in digits. -/
def turnDigits (mac : Mac) (salt session : String) (turn : Nat) : String :=
  hexText ((mac (sessionSecret mac salt session) (utf8 (toString turn))).take 2)

theorem hexDigits_pair (a b : UInt8) :
    hexDigits 4 (256 * a.toNat + b.toNat) = hexDigits 2 a.toNat ++ hexDigits 2 b.toNat := by
  have hb := b.toNat_lt
  have hhigh : (256 * a.toNat + b.toNat) / 16 ^ 2 = a.toNat := by omega
  have hlow : (256 * a.toNat + b.toNat) % 16 ^ 2 = b.toNat := by omega
  rw [hexDigits_append 2 2, hhigh, ← hexDigits_mod 2 (256 * a.toNat + b.toNat), hlow]

theorem text_turnIdOf (a b : UInt8) (code : Bytes) : (turnIdOf (a :: b :: code)).text = hexText [a, b] := by
  have ha := a.toNat_lt
  have hb := b.toNat_lt
  have hbits : (turnIdOf (a :: b :: code)).bits.toNat = 256 * a.toNat + b.toNat :=
    UInt16.toNat_ofNat_of_lt (by simp only [List.getD_cons_zero, List.getD_cons_succ, UInt16.size]; omega)
  rw [TurnId.text, TurnId.digits, hbits, hexDigits_pair, List.map_append]
  simp [hexText]

theorem text_turnIdBy {mac : Mac} (hmac : ∀ key message, (mac key message).length = 32) (salt session : String)
    (turn : Nat) : (turnIdBy mac salt session turn).text = turnDigits mac salt session turn := by
  have hlen := hmac (sessionSecret mac salt session) (utf8 (toString turn))
  rw [turnIdBy, turnDigits]
  generalize mac (sessionSecret mac salt session) (utf8 (toString turn)) = code at hlen
  match code, hlen with
  | a :: b :: code, _ => exact text_turnIdOf a b code

theorem length_bigEndian (width n : Nat) : (bigEndian width n).length = width := by
  induction width generalizing n with
  | zero => rfl
  | succ width ih => rw [bigEndian, List.length_append, ih, List.length_singleton]

theorem length_hmacSha256 (key message : Bytes) : (hmacSha256 key message).length = 32 := by
  simp [hmacSha256, sha256, Words.toBytes, length_bigEndian]

/-! ### The block of a turn -/

/-- A body in the tags of an identifier. -/
def inTags (t : TurnId) (body : List Char) : List Char :=
  t.openTag.toList ++ (body ++ t.closeTag.toList)

/-- No opening tag stands in a text. -/
def Tagless (s : List Char) : Prop :=
  ∀ t tag, TagMark ['<'] t tag → ¬t <:+: s

/-- The closing tag of an identifier does not stand in a text, in whatever case. -/
def Unclosed (t : TurnId) (s : List Char) : Prop :=
  ∀ c, c.map Char.toLower = t.closeTag.toList.map Char.toLower → ¬c <:+: s

/-- The first block of a text has the body and the identifier. Under every policy it runs where this identifier is
    expected, and is refused where any other one is. -/
def Owned (t : TurnId) (body text : List Char) : Prop :=
  ∃ b more, blocks text = b :: more ∧ b.body = body ∧ b.turn? = some t.text ∧
    (∀ policy, verdict b.turn? (some t) policy = .allow) ∧
      ∀ other, other ≠ t → ∀ policy, verdict b.turn? (some other) policy = .block (Verdict.mismatch other t.text)

/-- A body in the tags of an identifier as a block. -/
def turnBlock (t : TurnId) (body : List Char) : Block :=
  ⟨⟨"nit-".toList ++ t.digits⟩, t.openTag.toList, body, t.closeTag.toList⟩

section
variable {t other : TurnId} {front body : List Char}

theorem tagName_turnBlock (t : TurnId) (body : List Char) : TagName (turnBlock t body).mark.name (some t.digits) :=
  @TagName.numbered "nit".toList t.digits rfl t.length_digits fun _ => TurnId.isHexDigit_of_mem_digits

theorem turnBlock_turn? : (turnBlock t body).turn? = some t.text := by
  rw [Block.turn?, (tagName_turnBlock t body).digits?_eq, Option.map_some, TurnId.map_toUpper_digits]
  rfl

theorem formed_turnBlock : Formed (turnBlock t body) := by
  have hopen : TagMark ['<'] (turnBlock t body).opening (turnBlock t body).mark := by
    refine ⟨?_, some t.digits, tagName_turnBlock t body⟩
    simp [turnBlock, TurnId.openTag, TurnId.text]
  have hclose : ClosesTag (turnBlock t body).mark.name (turnBlock t body).closing := by
    refine ⟨(turnBlock t body).mark.name, ?_, rfl⟩
    simp [turnBlock, TurnId.closeTag, TurnId.text]
  exact .of_tagMark hopen hclose

theorem Unclosed.shut (h : Unclosed t body) : Shut (turnBlock t body) := by
  intro s ⟨name, hs, hname⟩
  refine h s ?_
  rw [hs]
  simp [hname, turnBlock, TurnId.closeTag, TurnId.text]

theorem validate_text : validate (some t.text) other.text = if t = other then .valid else .invalid := by
  have hvalid := validate_digits other t.length_digits fun _ => TurnId.isHexDigit_of_mem_digits
  rwa [TurnId.map_toUpper_digits, if_congr TurnId.map_toLower_digits_inj rfl rfl] at hvalid

theorem owned_inTags (hfront : Tagless front) (hbody : Unclosed t body) (rest : List Char) :
    Owned t body (front ++ (inTags t body ++ rest)) := by
  have hraw : inTags t body = (turnBlock t body).raw := by rw [inTags, Enclosed.raw, turnBlock]
  have found := search_block formed_turnBlock hbody.shut hfront rest
  have hblocks : blocks (front ++ (inTags t body ++ rest)) = turnBlock t body :: blocks rest := by
    rw [hraw, blocks, blocks, Pattern.cut_of_some found, List.map_cons]
  refine ⟨turnBlock t body, blocks rest, hblocks, rfl, turnBlock_turn?, ?_, ?_⟩
  · intro policy
    have hvalid : validate (some t.text) t.text = .valid := by rw [validate_text, if_pos rfl]
    simp only [turnBlock_turn?, verdict, hvalid]
  · intro other hother policy
    have hvalid : validate (some t.text) other.text = .invalid := by rw [validate_text, if_neg hother.symm]
    simp only [turnBlock_turn?, verdict, hvalid, Option.getD_some]

end

/-- The identifier of a turn is the one that the digits of its code write, and a body in its tags is the first block of
    a text that has no opening tag before it. -/
theorem turn_owns_block (mac : Mac) (hmac : ∀ key message, (mac key message).length = 32) (salt session : String)
    (turn : Nat) :
    TurnId.ofText (turnDigits mac salt session turn) = .ok (turnIdBy mac salt session turn) ∧
      (turnIdBy mac salt session turn).text = turnDigits mac salt session turn ∧
      ∀ front body rest, Tagless front → Unclosed (turnIdBy mac salt session turn) body →
        Owned (turnIdBy mac salt session turn) body
          (front ++ (inTags (turnIdBy mac salt session turn) body ++ rest)) := by
  have htext := text_turnIdBy hmac salt session turn
  refine ⟨?_, htext, ?_⟩
  · rw [← htext, TurnId.ofText_text]
  · intro front body rest hfront hbody
    exact owned_inTags hfront hbody rest

/-- Parts of tags before the block, in it and behind it. -/
theorem turn_owns_block_fragments :
    (∀ key message, (hmacSha256 key message).length = 32) ∧ Tagless "Hi <nit-12".toList ∧
      Unclosed (turnIdBy hmacSha256 defaultSalt "s" 3) "b()</nit>".toList ∧
      Owned (turnIdBy hmacSha256 defaultSalt "s" 3) "b()</nit>".toList
        ("Hi <nit-12".toList ++ (inTags (turnIdBy hmacSha256 defaultSalt "s" 3) "b()</nit>".toList ++ "</nit>".toList)) := by
  have hfront : Tagless "Hi <nit-12".toList := by
    intro s tag hs hinfix
    have hend : '>' ∈ "Hi <nit-12".toList := hinfix.subset (by rw [hs.1]; simp)
    exact absurd hend (by decide)
  have hbody : Unclosed (turnIdBy hmacSha256 defaultSalt "s" 3) "b()</nit>".toList := by
    intro c hc hinfix
    have hlen : c.length = 11 := by
      rw [← List.length_map Char.toLower, hc, List.length_map]
      simp [TurnId.closeTag, TurnId.text, TurnId.length_digits]
    have hle := hinfix.length_le
    rw [hlen] at hle
    exact absurd hle (by decide)
  obtain ⟨-, -, howned⟩ := turn_owns_block hmacSha256 length_hmacSha256 defaultSalt "s" 3
  exact ⟨length_hmacSha256, hfront, hbody, howned _ _ _ hfront hbody⟩

end ToolScript.Security
