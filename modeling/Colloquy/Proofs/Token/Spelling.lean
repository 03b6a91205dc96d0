import Colloquy.Proofs.Text.Digits
import Colloquy.Token.Scan

/-!
# How tokens are written

`Lexeme.WrittenAs` says which texts spell a lexeme.  Marks have fixed spellings, names and numbers stand for
themselves, and free text and strings are read past their escapes (`unescaped`, `unquoted`).  What the
scanner takes for a lexeme spells it, and is exactly what it goes on behind: there is one lemma for each of
the readers of the scanner.
-/

namespace Colloquy

/-- The ways to write a mark.  A line also ends where the source does, and nothing is written there. -/
def Mark.spellings : Mark → List String
  | .openParen => ["("] | .closeParen => [")"]
  | .openBrace => ["\x7b"] | .closeBrace => ["\x7d"]
  | .openBracket => ["["] | .closeBracket => ["]"]
  | .comma => [","] | .colon => [":"]
  | .minus => ["-"] | .plus => ["+"] | .slash => ["/"] | .star => ["*"]
  | .percent => ["%"] | .bang => ["!"] | .bangEqual => ["!="]
  | .equal => ["="] | .equalEqual => ["=="]
  | .greater => [">"] | .greaterEqual => [">="]
  | .less => ["<"] | .lessEqual => ["<="]
  | .plusEqual => ["+="] | .minusEqual => ["-="]
  | .starEqual => ["*="] | .slashEqual => ["/="]
  | .arrow => ["->"] | .tilde => ["~"]
  | .hashOpen => ["#\x7b"] | .directiveOpen => ["<<"]
  | .directiveClose => [">>"] | .sectionMarker => ["==="]
  | .andWord => ["and", "&&"] | .orWord => ["or", "||"]
  | .trueWord => ["true"] | .falseWord => ["false"]
  | .ifWord => ["if"] | .elseWord => ["else"] | .choiceWord => ["choice"]
  | .gotoWord => ["goto"] | .endWord => ["end"] | .speakerWord => ["speaker"]
  | .awaitWord => ["await"]
  | .newline => ["\n", ""] | .endOfFile => [""]

namespace Scan

/-- A letter or an underscore, then letters, digits and underscores. -/
def IsName (cs : List Char) : Prop :=
  (∃ c more, cs = c :: more ∧ isNameStart c = true) ∧ ∀ c ∈ cs, isNameChar c = true

/-- Digits, and more digits behind a point if there is one. -/
def IsDecimal (cs : List Char) : Prop :=
  Text.IsDigits cs ∨
    ∃ whole fraction, Text.IsDigits whole ∧ Text.IsDigits fraction ∧ cs = whole ++ '.' :: fraction

/-- What free text says: a backslash stands for the character behind it, and carriage returns are
dropped. -/
def unescaped : List Char → List Char
  | [] => []
  | '\r' :: cs => unescaped cs
  | ['\\'] => []
  | '\\' :: c :: cs => c :: unescaped cs
  | c :: cs => c :: unescaped cs

/-- What a string says behind its opening quote: unknown escapes are dropped, and the closing quote ends
it. -/
def unquoted : List Char → List Char
  | [] => []
  | '"' :: _ => []
  | ['\\'] => []
  | '\\' :: c :: cs => (stringEscape? c).toList ++ unquoted cs
  | c :: cs => c :: unquoted cs

end Scan

/-- A text spells a lexeme. -/
def Lexeme.WrittenAs : Lexeme → List Char → Prop
  | .mark m, cs => String.ofList cs ∈ m.spellings
  | .identifier name, cs => String.ofList cs = name ∧ Scan.IsName cs ∧ Scan.keyword? name = none
  | .number x, cs => Scan.IsDecimal cs ∧ Number.parse? (String.ofList cs) = some x
  | .text s, cs => String.ofList (Scan.unescaped cs) = s ∧ s ≠ ""
  | .string s, cs => ∃ more, cs = '"' :: more ∧ String.ofList (Scan.unquoted more) = s

namespace Scan

open Text

/-! ## Characters of one byte -/

/-- Characters of one byte each take as many bytes as there are characters. -/
theorem byteSize_eq_length {cs : List Char} (h : ∀ c ∈ cs, c.utf8Size = 1) : byteSize cs = cs.length := by
  induction cs with
  | nil => rfl
  | cons c cs ih =>
    rw [byteSize_cons, h c (List.mem_cons_self ..), List.length_cons,
      ih fun d hd => h d (List.mem_cons_of_mem _ hd), Nat.add_comm]

/-- A character of a name takes one byte. -/
theorem utf8Size_of_isNameChar {c : Char} (h : isNameChar c = true) : c.utf8Size = 1 := by
  rw [isNameChar, Bool.or_eq_true, decide_eq_true_eq] at h
  rcases h with h | rfl
  · have hval : c.val ≤ 0x7F := by
      rcases Bool.or_eq_true_iff.mp h with hletter | hdigit
      · rcases Bool.or_eq_true_iff.mp hletter with hupper | hlower
        · exact UInt32.le_trans (of_decide_eq_true hupper).2 (by decide)
        · exact UInt32.le_trans (of_decide_eq_true (Bool.and_eq_true_iff.mp hlower).2) (by decide)
      · exact UInt32.le_trans (of_decide_eq_true (Bool.and_eq_true_iff.mp hdigit).2) (by decide)
    exact if_pos hval
  · rfl

theorem isNameChar_of_isDigit {c : Char} (h : c.isDigit = true) : isNameChar c = true := by
  simp [isNameChar, Char.isAlphanum, h]

theorem isNameChar_of_isNameStart {c : Char} (h : isNameStart c = true) : isNameChar c = true := by
  simp only [isNameStart, isNameChar, Char.isAlphanum, Bool.or_eq_true] at h ⊢
  exact h.imp_left .inl

/-! ## Marks -/

/-- The mark in front of a text is written there, in as many bytes as its width. -/
theorem punctuation?_spells {cs rest : List Char} {m : Mark} {width : Nat}
    (h : punctuation? cs = some (m, width, rest)) :
    ∃ piece, cs = piece ++ rest ∧ byteSize piece = width ∧ String.ofList piece ∈ m.spellings := by
  unfold punctuation? at h
  split at h
  all_goals cases h
  -- marks of three characters, of two, and of one
  · exact ⟨[_, _, _], rfl, by decide, by decide⟩
  iterate 14 exact ⟨[_, _], rfl, by decide, by decide⟩
  all_goals exact ⟨[_], rfl, by decide, by decide⟩

/-- A keyword is a spelling of its mark. -/
theorem keyword?_spells {name : String} {m : Mark} (h : keyword? name = some m) : name ∈ m.spellings := by
  unfold keyword? at h
  split at h
  all_goals cases h
  all_goals decide

/-! ## Names and numbers -/

/-- The word that starts with a character of names is a name of as many bytes as characters. -/
theorem word_spells {c : Char} (hc : isNameStart c = true) (cs : List Char) :
    IsName ((c :: cs).takeWhile isNameChar) ∧
      byteSize ((c :: cs).takeWhile isNameChar) = ((c :: cs).takeWhile isNameChar).length := by
  have hall : ∀ d ∈ (c :: cs).takeWhile isNameChar, isNameChar d = true :=
    List.all_eq_true.mp List.all_takeWhile
  refine ⟨⟨⟨c, cs.takeWhile isNameChar, ?_, hc⟩, hall⟩, ?_⟩
  · exact List.takeWhile_cons_of_pos (isNameChar_of_isNameStart hc)
  · exact byteSize_eq_length fun d hd => utf8Size_of_isNameChar (hall d hd)

/-- The digits of a number are a decimal, and what follows them is left. -/
theorem numberDigits_spells {c : Char} (hc : c.isDigit = true) (cs : List Char) :
    c :: cs = (numberDigits (c :: cs)).1 ++ (numberDigits (c :: cs)).2 ∧
      IsDecimal (numberDigits (c :: cs)).1 := by
  have hwhole := IsDigits.takeWhile hc cs
  have hsplit := List.takeWhile_append_dropWhile (p := Char.isDigit) (l := c :: cs)
  unfold numberDigits
  simp only
  split
  · next d more heq =>
    rw [heq] at hsplit
    split
    · next hd =>
      -- a digit behind the point belongs to the number
      refine ⟨?_, .inr ⟨_, _, hwhole, IsDigits.takeWhile hd more, rfl⟩⟩
      rw [List.append_assoc, List.cons_append, List.takeWhile_append_dropWhile, hsplit]
    · exact ⟨hsplit.symm, .inl hwhole⟩
  · exact ⟨hsplit.symm, .inl hwhole⟩

/-- A number takes as many bytes as it has characters. -/
theorem IsDecimal.byteSize {cs : List Char} (h : IsDecimal cs) : byteSize cs = cs.length := by
  refine byteSize_eq_length ?_
  have hdigits : ∀ {ds : List Char}, IsDigits ds → ∀ c ∈ ds, c.utf8Size = 1 :=
    fun hds c hc => utf8Size_of_isNameChar (isNameChar_of_isDigit (hds.2 c hc))
  rcases h with h | ⟨whole, fraction, hwhole, hfraction, rfl⟩
  · exact hdigits h
  · intro c hc
    rcases List.mem_append.mp hc with hc | hc
    · exact hdigits hwhole c hc
    · rcases List.mem_cons.mp hc with rfl | hc
      · rfl
      · exact hdigits hfraction c hc

/-- A decimal without sign and exponent is read as some float. -/
theorem IsDecimal.exists_parse? {cs : List Char} (h : IsDecimal cs) :
    ∃ x, Number.parse? (String.ofList cs) = some x := by
  have hunsigned : ∃ x, Number.unsigned? cs = some x := by
    rcases h with h | ⟨whole, fraction, hwhole, hfraction, rfl⟩
    · obtain ⟨htake, hdrop⟩ := h.split noDigit_nil
      rw [List.append_nil] at htake hdrop
      rw [Number.unsigned?, htake, hdrop]
      simp [h.1, Number.exponentPart?]
    · obtain ⟨htake, hdrop⟩ := hwhole.split (NoDigit.cons (c := '.') rfl fraction)
      obtain ⟨htake', hdrop'⟩ := hfraction.split noDigit_nil
      rw [List.append_nil] at htake' hdrop'
      rw [Number.unsigned?, htake, hdrop]
      simp [hwhole.1, htake', hdrop', Number.exponentPart?]
  obtain ⟨x, hx⟩ := hunsigned
  have hsign : Number.takeSign cs = (false, cs) := by
    obtain ⟨c, more, rfl, hc⟩ : ∃ c more, cs = c :: more ∧ c.isDigit = true := by
      rcases h with h | ⟨whole, fraction, hwhole, _, rfl⟩
      · exact h.exists_cons
      · obtain ⟨c, more, rfl, hc⟩ := hwhole.exists_cons
        exact ⟨c, _, rfl, hc⟩
    unfold Number.takeSign
    split
    · next heq =>
      cases heq
      exact absurd hc (by decide)
    · next heq =>
      cases heq
      exact absurd hc (by decide)
    · rfl
  rw [Number.parse?, String.toList_ofList, hsign]
  simp only [Bool.false_eq_true, if_false, Option.map_id']
  -- the words for the infinities and for no number are no decimals, but they are read as well
  split
  · exact ⟨_, rfl⟩
  · exact ⟨_, rfl⟩
  · exact ⟨_, rfl⟩
  · exact ⟨x, hx⟩

/-! ## Text and strings -/

/-- A text was read from an offset up to where `rest` is left, and `said` is what it means. -/
def Reads (meaning : List Char → List Char) (offset : Nat) (cs said : List Char) (stop : Nat)
    (rest : List Char) : Prop :=
  ∃ piece, cs = piece ++ rest ∧ stop = offset + byteSize piece ∧ said = meaning piece

/-- Characters in front are read first and mean what they mean before all others. -/
theorem Reads.before {meaning : List Char → List Char} {offset stop : Nat} {cs said rest : List Char}
    (front first : List Char) (h : Reads meaning (offset + byteSize front) cs said stop rest)
    (hfirst : ∀ piece, meaning (front ++ piece) = first ++ meaning piece) :
    Reads meaning offset (front ++ cs) (first ++ said) stop rest := by
  obtain ⟨piece, rfl, rfl, rfl⟩ := h
  refine ⟨front ++ piece, (List.append_assoc _ _ _).symm, ?_, (hfirst piece).symm⟩
  rw [byteSize_append, Nat.add_assoc]

/-- A backslash with the character behind it. -/
theorem Reads.escape {meaning : List Char → List Char} {offset stop : Nat} {c : Char}
    {cs said rest : List Char} (first : List Char)
    (h : Reads meaning (offset + 1 + c.utf8Size) cs said stop rest)
    (hfirst : ∀ piece, meaning ('\\' :: c :: piece) = first ++ meaning piece) :
    Reads meaning offset ('\\' :: c :: cs) (first ++ said) stop rest := by
  rw [Nat.add_assoc] at h
  exact Reads.before ['\\', c] first h hfirst

/-- A character that is no backslash, whether it is the last one or not. -/
theorem ne_backslash {c : Char} {cs : List Char} (hlast : c = '\\' → cs = [] → False)
    (hescape : ∀ d ds, c = '\\' → cs = d :: ds → False) : c ≠ '\\' := by
  intro hc
  cases cs with
  | nil => exact hlast hc rfl
  | cons d ds => exact hescape d ds hc rfl

/-- Free text is read past its escapes. -/
theorem textRun_reads (offset : Nat) (cs : List Char) : Reads unescaped offset cs
    (textRun offset cs).text (textRun offset cs).offset (textRun offset cs).rest := by
  fun_induction textRun offset cs with
  | case1 cs offset _ => exact ⟨[], rfl, rfl, rfl⟩
  | case2 offset h => exact absurd rfl h
  | case3 offset cs _ ih => exact Reads.before ['\r'] [] ih fun _ => rfl
  | case4 offset _ => exact ⟨['\\'], rfl, rfl, rfl⟩
  | case5 offset c cs run _ _ ih => exact Reads.escape [c] ih fun _ => rfl
  | case6 offset c cs run _ _ ih => exact Reads.escape [c] ih fun _ => rfl
  | case7 offset c cs hreturn hlast hescape _ ih =>
    refine Reads.before [c] [c] ih fun piece => ?_
    have hne := ne_backslash hlast hescape
    exact unescaped.eq_5 c piece hreturn (fun h => absurd h hne) fun _ _ h => absurd h hne

/-- Free text stops where it has to. -/
theorem stopsText_textRun (offset : Nat) (cs : List Char) :
    stopsText (textRun offset cs).rest = true := by
  fun_induction textRun offset cs with
  | case1 cs offset h => exact h
  | case2 offset h => exact absurd rfl h
  | case4 offset _ => rfl
  | case3 offset cs _ ih => exact ih
  | case5 offset c cs run _ _ ih => exact ih
  | case6 offset c cs run _ _ ih => exact ih
  | case7 offset c cs _ _ _ _ ih => exact ih

/-- What no mark of text stops ends with its line or with the source. -/
theorem stopsText_line {rest : List Char} (h : stopsText rest = true)
    (hbrace : ∀ cs, rest = '\x7b' :: cs → False) (hdirective : ∀ cs, rest = '<' :: '<' :: cs → False)
    (hhash : ∀ cs, rest = '#' :: '\x7b' :: cs → False) (harrow : ∀ cs, rest = '-' :: '>' :: cs → False) :
    rest = [] ∨ ∃ more, rest = '\n' :: more := by
  unfold stopsText at h
  split at h
  · exact .inl rfl
  · next more => exact .inr ⟨more, rfl⟩
  · exact absurd rfl (hbrace _)
  · exact absurd rfl (hdirective _)
  · exact absurd rfl (hhash _)
  · exact absurd rfl (harrow _)
  · cases h

/-- A string is read past its escapes, up to its closing quote or the end of the line. -/
theorem stringRun_reads (start offset : Nat) (cs : List Char) : Reads unquoted offset cs
    (stringRun start offset cs).value (stringRun start offset cs).offset
    (stringRun start offset cs).rest := by
  fun_induction stringRun start offset cs with
  | case1 offset => exact ⟨[], rfl, rfl, rfl⟩
  | case2 offset cs => exact ⟨[], rfl, rfl, rfl⟩
  | case3 offset cs => exact ⟨['"'], rfl, rfl, rfl⟩
  | case4 offset => exact ⟨['\\'], rfl, rfl, rfl⟩
  | case5 offset cs => exact ⟨['\\'], rfl, rfl, rfl⟩
  | case6 offset c cs _ run d hd ih =>
    refine Reads.escape [d] ih fun piece => ?_
    rw [unquoted, hd]
    rfl
  | case7 offset c cs _ run hnone ih =>
    refine Reads.escape [] ih fun piece => ?_
    rw [unquoted, hnone]
    rfl
  | case8 offset c cs _ hquote hlast hescape ih =>
    refine Reads.before [c] [c] ih fun piece => ?_
    have hne := ne_backslash hlast hescape
    exact unquoted.eq_5 c piece hquote (fun h => absurd h hne) fun _ _ h => absurd h hne

end Scan

end Colloquy
