import ToolScript.Markup.Tag
import ToolScript.Proofs.Text.Classes
import ToolScript.Proofs.Text.Spelling
import ToolScript.Text.Size

/-! # The tags of scripts

    What the patterns of tags match, said without the patterns: a tag is a bracket, a name and a closing bracket. No
    tag has a bracket inside it, so of two tags in a text neither begins within the other. -/

namespace ToolScript.Markup
open Text

/-- The names of tags with their digits: `nit` in any case, alone or with a hyphen and four hexadecimal digits. -/
inductive TagName : List Char → Option (List Char) → Prop
  | plain {word : List Char} (hw : word.map Char.toLower = ['n', 'i', 't']) : TagName word none
  | numbered {word digits : List Char} (hw : word.map Char.toLower = ['n', 'i', 't']) (hlen : digits.length = 4)
      (hd : ∀ c ∈ digits, isHexDigit c = true) : TagName (word ++ '-' :: digits) (some digits)

/-- A tag as it stands in a text after `bracket`. -/
def TagMark (bracket t : List Char) (tag : Tag) : Prop :=
  t = bracket ++ (tag.name ++ ['>']) ∧ ∃ digits, TagName tag.name digits

/-- A text that closes the tags of a name, in any case. -/
def ClosesTag (name t : List Char) : Prop :=
  ∃ other, t = '<' :: '/' :: (other ++ ['>']) ∧ other.map Char.toLower = name.map Char.toLower

/-! ### Names -/

theorem isAlpha_of_word {word : List Char} (hw : word.map Char.toLower = ['n', 'i', 't']) :
    word.length = 3 ∧ ∀ c ∈ word, c.isAlpha = true := by
  refine ⟨by simpa using congrArg List.length hw, fun c hc => ?_⟩
  have hmem : c.toLower ∈ word.map Char.toLower := List.mem_map_of_mem hc
  rw [hw] at hmem
  rw [← Char.isAlpha_toLower_eq_isAlpha]
  rcases List.mem_cons.mp hmem with h | hmem
  · rw [h]; rfl
  · rcases List.mem_cons.mp hmem with h | hmem
    · rw [h]; rfl
    · rw [List.mem_singleton.mp hmem]; rfl

namespace TagName
variable {name : List Char} {digits : Option (List Char)}

theorem chars (h : TagName name digits) : ∀ c ∈ name, c.isAlphanum = true ∨ c = '-' := by
  cases h with
  | plain hw => exact fun c hc => Or.inl (by simp [Char.isAlphanum, (isAlpha_of_word hw).2 c hc])
  | numbered hw hlen hd =>
    intro c hc
    rcases List.mem_append.mp hc with hc | hc
    · exact Or.inl (by simp [Char.isAlphanum, (isAlpha_of_word hw).2 c hc])
    · rcases List.mem_cons.mp hc with rfl | hc
      · exact Or.inr rfl
      · exact Or.inl (isAlphanum_of_isHexDigit (hd c hc))

theorem not_mem (h : TagName name digits) {c : Char} (hc : c.isAlphanum = false) (hne : c ≠ '-') : c ∉ name :=
  fun hmem => by
    rcases h.chars c hmem with h' | h'
    · rw [hc] at h'; cases h'
    · exact hne h'

theorem length_le (h : TagName name digits) : name.length ≤ 8 := by
  cases h with
  | plain hw => rw [(isAlpha_of_word hw).1]; decide
  | numbered hw hlen hd => simp [(isAlpha_of_word hw).1, hlen]

theorem digits?_eq (h : TagName name digits) : Tag.digits? ⟨name⟩ = digits := by
  cases h with
  | plain hw => simp [Tag.digits?, List.drop_eq_nil_of_le, (isAlpha_of_word hw).1]
  | @numbered word ds hw hlen hd =>
    have hdrop : (word ++ '-' :: ds).drop 4 = ds := by
      rw [List.drop_append, List.drop_eq_nil_of_le (by simp [(isAlpha_of_word hw).1]), (isAlpha_of_word hw).1]
      rfl
    simp only [Tag.digits?, hdrop]
    cases ds with
    | nil => simp at hlen
    | cons d ds => rfl

/-- What is the same as a name in any case is a name. -/
theorem of_map_toLower_eq (h : TagName name digits) {other : List Char}
    (hother : other.map Char.toLower = name.map Char.toLower) : ∃ digits', TagName other digits' := by
  cases h with
  | plain hw => exact ⟨none, .plain (hother.trans hw)⟩
  | @numbered word ds hw hlen hd =>
    rw [List.map_append, List.map_cons] at hother
    obtain ⟨word', rest, rfl, hword, hrest⟩ := List.map_eq_append_iff.mp hother
    obtain ⟨c, ds', rfl, hc, hds⟩ := List.map_eq_cons_iff.mp hrest
    obtain rfl : c = '-' := eq_of_toLower_eq (by decide) hc
    have hlen' : ds'.length = 4 := by
      rw [← List.length_map Char.toLower, hds, List.length_map, hlen]
    refine ⟨some ds', .numbered (hword.trans hw) hlen' fun c hc => ?_⟩
    have hmem : c.toLower ∈ ds.map Char.toLower := hds ▸ List.mem_map_of_mem hc
    obtain ⟨d, hd', heq⟩ := List.mem_map.mp hmem
    rw [← isHexDigit_toLower, ← heq, isHexDigit_toLower]
    exact hd d hd'

end TagName

/-- What closes the tags of a name is a closing tag itself. -/
theorem ClosesTag.tagMark {name t : List Char} {digits : Option (List Char)} (ht : ClosesTag name t)
    (hname : TagName name digits) : ∃ tag, TagMark ['<', '/'] t tag := by
  obtain ⟨other, rfl, hother⟩ := ht
  exact ⟨⟨other⟩, rfl, hname.of_map_toLower_eq hother⟩

/-! ### The patterns -/

theorem tagPattern_spells {bracket : List Char} (hb : ∀ l ∈ bracket, l.isAlpha = false) (classes : List (Char → Bool)) :
    (tagPattern bracket classes).Spells fun t tag => t = bracket ++ (tag.name ++ ['>']) ∧
      ∃ word rest, tag.name = word ++ rest ∧ word.map Char.toLower = ['n', 'i', 't'] ∧ OfClasses classes rest := by
  refine ((Pattern.classes_spells (by simp)).map _).congr fun t tag => ?_
  constructor
  · rintro ⟨_, ⟨ht, rfl⟩, rfl⟩
    obtain ⟨front, last, hfront, hlast, rfl⟩ := forall₂_append_left_iff.mp ht
    obtain ⟨head, rest, hhead, hrest, rfl⟩ := forall₂_append_left_iff.mp hfront
    rw [List.map_append] at hhead
    obtain ⟨b, word, hb', hword, rfl⟩ := forall₂_append_left_iff.mp hhead
    obtain rfl : last = ['>'] := by simpa [List.forall₂_cons_left_iff] using hlast
    rw [List.forall₂_map_left_iff] at hb' hword
    obtain rfl := eq_of_map_toLower_eq hb (Pattern.anyCase_mark_iff.mp hb')
    refine ⟨by simp, word, rest, by simp, Pattern.anyCase_mark_iff.mp hword, hrest⟩
  · rintro ⟨rfl, word, rest, hname, hword, hrest⟩
    refine ⟨_, ⟨?_, rfl⟩, by simp⟩
    rw [hname]
    have hhead : OfClasses ((bracket ++ ['n', 'i', 't']).map sameLetter) (bracket ++ word) := by
      rw [List.map_append]
      refine forall₂_append_left_iff.mpr ⟨bracket, word, ?_, ?_, rfl⟩
      · rw [List.forall₂_map_left_iff]
        exact Pattern.anyCase_mark_iff.mpr rfl
      · rw [List.forall₂_map_left_iff]
        exact Pattern.anyCase_mark_iff.mpr hword
    have := List.rel_append (List.rel_append hhead hrest) (.cons rfl .nil : OfClasses [(· == '>')] ['>'])
    simpa [OfClasses] using this

theorem ofClasses_digits {rest : List Char} :
    OfClasses digitClasses rest ↔
      ∃ digits, rest = '-' :: digits ∧ digits.length = 4 ∧ ∀ c ∈ digits, isHexDigit c = true := by
  simp only [OfClasses, digitClasses, List.forall₂_cons_left_iff, List.forall₂_nil_left_iff]
  constructor
  · rintro ⟨_, _, hc, ⟨a, _, ha, ⟨b, _, hb, ⟨c, _, hc', ⟨d, _, hd, rfl, rfl⟩, rfl⟩, rfl⟩, rfl⟩, rfl⟩
    exact ⟨[a, b, c, d], by simpa using hc, rfl, by simp [ha, hb, hc', hd]⟩
  · rintro ⟨digits, rfl, hlen, hd⟩
    obtain ⟨a, b, c, d, rfl⟩ := List.length_eq_four.mp hlen
    simp only [List.mem_cons, List.not_mem_nil, or_false, forall_eq_or_imp, forall_eq] at hd
    exact ⟨'-', _, rfl, ⟨a, _, hd.1, ⟨b, _, hd.2.1, ⟨c, _, hd.2.2.1, ⟨d, _, hd.2.2.2, rfl, rfl⟩, rfl⟩, rfl⟩, rfl⟩, rfl⟩

theorem anyTag_spells {bracket : List Char} (hb : ∀ l ∈ bracket, l.isAlpha = false) :
    (anyTag bracket).Spells (TagMark bracket) := by
  refine ((tagPattern_spells hb []).or (tagPattern_spells hb digitClasses) ?_).congr fun t tag => ?_
  · rintro t v t' v' r r' ⟨rfl, word, rest, hname, hword, hrest⟩ ⟨rfl, word', rest', hname', hword', hrest'⟩ h
    obtain rfl := List.forall₂_nil_left_iff.mp hrest
    obtain ⟨digits, rfl, -, -⟩ := ofClasses_digits.mp hrest'
    rw [hname, hname'] at h
    simp only [List.append_nil, List.append_assoc] at h
    -- After the word one name ends and the other goes on with a hyphen.
    have := List.append_inj_right (List.append_cancel_left h)
      ((isAlpha_of_word hword).1.trans (isAlpha_of_word hword').1.symm)
    simp at this
  · constructor
    · rintro (⟨ht, word, rest, hname, hword, hrest⟩ | ⟨ht, word, rest, hname, hword, hrest⟩)
      · obtain rfl := List.forall₂_nil_left_iff.mp hrest
        rw [List.append_nil] at hname
        exact ⟨ht, none, hname ▸ .plain hword⟩
      · obtain ⟨digits, rfl, hlen, hd⟩ := ofClasses_digits.mp hrest
        exact ⟨ht, some digits, hname ▸ .numbered hword hlen hd⟩
    · rintro ⟨ht, digits, hname⟩
      obtain ⟨name⟩ := tag
      cases hname with
      | plain hw => exact Or.inl ⟨ht, name, [], by simp, hw, .nil⟩
      | numbered hw hlen hd => exact Or.inr ⟨ht, _, _, rfl, hw, ofClasses_digits.mpr ⟨_, rfl, hlen, hd⟩⟩

theorem openTag_spells : openTag.Spells (TagMark ['<']) :=
  anyTag_spells (by simp [Char.isAlpha, Char.isUpper, Char.isLower])

theorem closeTag_spells : closeTag.Spells (TagMark ['<', '/']) :=
  anyTag_spells (by simp [Char.isAlpha, Char.isUpper, Char.isLower])

namespace TagMark
variable {bracket t : List Char} {tag : Tag}

/-- A character that is no letter, digit, hyphen or bracket stands in no tag after its bracket. -/
theorem not_mem (h : TagMark bracket t tag) {c : Char} (hc : c.isAlphanum = false) (hne : c ≠ '-') (hgt : c ≠ '>') :
    c ∉ tag.name ++ ['>'] := by
  obtain ⟨-, digits, hname⟩ := h
  simp [hname.not_mem hc hne, hgt]

/-- A tag has an opening bracket at its beginning only. -/
theorem not_mem_tail (h : TagMark ('<' :: bracket) t tag) (hb : '<' ∉ bracket) : '<' ∉ t.tail := by
  have hname := h.not_mem (c := '<') (by decide) (by decide) (by decide)
  rw [h.1, List.cons_append, List.tail_cons, List.mem_append]
  exact fun h => h.elim hb hname

theorem length_le (h : TagMark bracket t tag) : t.length ≤ bracket.length + 9 := by
  obtain ⟨rfl, digits, hname⟩ := h
  have := hname.length_le
  simp only [List.length_append, List.length_singleton]
  omega

theorem utf8Size_eq (h : TagMark bracket t tag) (hb : ∀ c ∈ bracket, c.toNat < 128) : utf8Size t = t.length := by
  obtain ⟨rfl, digits, hname⟩ := h
  refine utf8Size_eq_length fun c hc => ?_
  rcases List.mem_append.mp hc with hc | hc
  · exact hb c hc
  · rcases List.mem_append.mp hc with hc | hc
    · rcases hname.chars c hc with h | rfl
      · exact toNat_lt_of_isAlphanum h
      · decide
    · rw [List.mem_singleton.mp hc]
      decide

end TagMark

theorem closing_spells (tag : Tag) : tag.closing.Spells fun t _ => ClosesTag tag.name t := by
  refine (Pattern.anyCase_spells (by simp)).congr fun t _ => ?_
  constructor
  · intro h
    rw [show '<' :: '/' :: (tag.name ++ ['>']) = ['<', '/'] ++ (tag.name ++ ['>']) from rfl, List.map_append,
      List.map_append] at h
    obtain ⟨front, last, rfl, hfront, hlast⟩ := List.map_eq_append_iff.mp h
    obtain ⟨other, tail, rfl, hother, htail⟩ := List.map_eq_append_iff.mp hlast
    obtain rfl := eq_of_map_toLower_eq (by simp [Char.isAlpha, Char.isUpper, Char.isLower]) hfront
    obtain rfl := eq_of_map_toLower_eq (by simp [Char.isAlpha, Char.isUpper, Char.isLower]) htail
    exact ⟨other, rfl, hother⟩
  · rintro ⟨other, rfl, hother⟩
    simp [hother]

end ToolScript.Markup
