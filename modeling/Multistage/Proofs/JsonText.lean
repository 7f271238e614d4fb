import Multistage.Json.Parser
import Multistage.Proofs.NumeralText

/-!
# JSON is read as it is written

`Json.pretty` and `Json.parse?` meet at the tokens of a value, `Json.tokens`: the text of a value is
cut into them, and the parser's machine builds the value from them.

Main results:

* `scans_pretty`: the tokens of the text that is written in front of any other text;
* `run_tokens`: the machine takes the tokens of a value to that value, whatever is open around it;
* `parse?_pretty`: reading undoes writing for values whose numbers can be read.
-/

namespace Multistage.Json

/-! ## Strings -/

theorem hexValue?_digitChar : ∀ d < 16, hexValue? (Nat.digitChar d) = some d := by decide

theorem takeQuoted_plain {c : Char} (hquote : c ≠ '"') (hescape : c ≠ '\\')
    (contents rest : List Char) : takeQuoted contents (c :: rest) = takeQuoted (c :: contents) rest := by
  rw [takeQuoted]
  · exact hquote
  · intro c' rest' hc _
    exact hescape hc

/-- Inside quotes, an escaped character ends the string nowhere. -/
theorem takeQuoted_escapeChar (c : Char) (contents rest : List Char) :
    takeQuoted contents (escapeChar c ++ rest) =
      takeQuoted ((escapeChar c).reverse ++ contents) rest := by
  fun_cases escapeChar c with
  | case8 c h1 h2 h3 h4 h5 h6 h7 hcontrol =>
    -- a control character is written by its number, and no digit closes the string
    have hhex : ∀ d < 16, Nat.digitChar d ≠ '"' ∧ Nat.digitChar d ≠ '\\' := by decide
    obtain ⟨hquote, hescape⟩ := hhex (c.toNat % 16) (by omega)
    have hfirst : (if c.toNat < 0x10 then '0' else '1') ≠ '"' ∧
        (if c.toNat < 0x10 then '0' else '1') ≠ '\\' := by
      split <;> decide
    rw [List.cons_append, List.cons_append, takeQuoted]
    simp only [List.cons_append, List.nil_append]
    rw [takeQuoted_plain (by decide) (by decide), takeQuoted_plain (by decide) (by decide),
      takeQuoted_plain hfirst.1 hfirst.2, takeQuoted_plain hquote hescape]
    rfl
  | case9 c h1 h2 h3 h4 h5 h6 h7 hplain => exact takeQuoted_plain h1 h2 contents rest
  | _ => rfl

/-- The closing quote is found, as none stands in the escaped characters. -/
theorem takeQuoted_flatMap (cs contents rest : List Char) :
    takeQuoted contents (cs.flatMap escapeChar ++ '"' :: rest) =
      some (contents.reverse ++ cs.flatMap escapeChar, rest) := by
  induction cs generalizing contents with
  | nil => simp [takeQuoted]
  | cons c cs ih =>
    rw [List.flatMap_cons, List.append_assoc, takeQuoted_escapeChar, ih]
    simp

/-- An escaped character is one piece, which stands for that character. -/
theorem pieces?_escapeChar (c : Char) : ∃ piece,
    (∀ done rest, pieces? done (escapeChar c ++ rest) = pieces? (piece :: done) rest) ∧
      ∀ done rest, joinPieces? done (piece :: rest) = joinPieces? (c :: done) rest := by
  fun_cases escapeChar c with
  | case8 c h1 h2 h3 h4 h5 h6 h7 hcontrol =>
    -- read as a code unit, far below the surrogates
    refine ⟨.unit c.toNat, fun done rest => ?_, fun done rest => ?_⟩
    · have hlow := hexValue?_digitChar (c.toNat % 16) (by omega)
      have hhigh : hexValue? (if c.toNat < 0x10 then '0' else '1') = some (c.toNat / 16) := by
        split
        · rw [Nat.div_eq_of_lt (by omega)]
          rfl
        · rw [show c.toNat / 16 = 1 by omega]
          rfl
      have hsum : 16 * (c.toNat / 16) + c.toNat % 16 = c.toNat := Nat.div_add_mod _ _
      have hzero : hexValue? '0' = some 0 := rfl
      simp [pieces?, hlow, hhigh, hzero, hsum]
    · rw [joinPieces?.eq_def]
      dsimp only
      rw [if_pos (by omega), Char.ofNat_toNat]
  | case9 c h1 h2 h3 h4 h5 h6 h7 hplain =>
    refine ⟨.char c, fun done rest => ?_, fun done rest => rfl⟩
    have hc : c ≠ '\\' := h2
    rw [List.singleton_append, pieces?]
    · simp [hc, hplain]
    · intro a b c' d rest' hu _
      exact hc hu
    · intro c' rest' hu _
      exact hc hu
  | _ => exact ⟨.char _, fun _ _ => rfl, fun _ _ => rfl⟩

/-- Escaped characters are cut into pieces that stand for the characters. -/
theorem pieces?_flatMap (cs : List Char) : ∃ pieces,
    (∀ done, pieces? done (cs.flatMap escapeChar) = some (done.reverse ++ pieces)) ∧
      ∀ done, joinPieces? done pieces = some (done.reverse ++ cs) := by
  induction cs with
  | nil => exact ⟨[], fun done => by simp [pieces?], fun done => by simp [joinPieces?]⟩
  | cons c cs ih =>
    obtain ⟨piece, hpiece, hjoin⟩ := pieces?_escapeChar c
    obtain ⟨pieces, hpieces, hjoins⟩ := ih
    refine ⟨piece :: pieces, fun done => ?_, fun done => ?_⟩
    · rw [List.flatMap_cons, hpiece, hpieces]
      simp
    · rw [hjoin, hjoins]
      simp

theorem unescape?_flatMap (s : String) : unescape? (s.toList.flatMap escapeChar) = some s := by
  obtain ⟨pieces, hpieces, hjoin⟩ := pieces?_flatMap s.toList
  simp [unescape?, hpieces, hjoin]

/-! ## Cutting text into tokens -/

/-- `cs` is cut into the tokens `ts`, up to `tail`. -/
def Scans (cs tail : List Char) (ts : List Token) : Prop :=
  ∀ done, tokensFrom? done cs = tokensFrom? (ts.reverse ++ done) tail

section Scans

variable {cs tail : List Char}

theorem Scans.trans {mid : List Char} {ts us : List Token} (h : Scans cs mid ts)
    (h' : Scans mid tail us) : Scans cs tail (ts ++ us) := by
  intro done
  rw [h, h']
  simp

theorem scans_blank {c : Char} {ts : List Token} (hc : isBlank c = true) (h : Scans cs tail ts) :
    Scans (c :: cs) tail ts := by
  intro done
  rw [tokensFrom?, if_pos hc]
  exact h done

/-- Blanks before a text are skipped. -/
theorem scans_newline {ts : List Token} (level : Nat) (h : Scans cs tail ts) :
    Scans (newline level ++ cs) tail ts := by
  have hblanks : ∀ n, Scans (List.replicate n ' ' ++ cs) tail ts := by
    intro n
    induction n with
    | zero => exact h
    | succ n ih => exact scans_blank rfl ih
  exact scans_blank rfl (hblanks (2 * level))

/-- A mark is a token of its own. -/
theorem scans_mark {c : Char} {token : Token} {ts : List Token} (hblank : isBlank c = false)
    (hquote : c ≠ '"') (hnumber : isNumberChar c = false) (hc : punctuation? c = some token)
    (h : Scans cs tail ts) : Scans (c :: cs) tail (token :: ts) := by
  intro done
  rw [tokensFrom?, if_neg (by simp [hblank]), if_neg hquote, if_neg (by simp [hnumber]), hc]
  dsimp only
  rw [h]
  simp

/-- A written string is scanned as one token. -/
theorem scans_string (s : String) : Scans (stringChars s ++ tail) tail [.string s] := by
  intro done
  have hquoted := takeQuoted_flatMap s.toList [] tail
  rw [List.reverse_nil, List.nil_append] at hquoted
  rw [stringChars, List.append_assoc, List.cons_append, List.singleton_append, tokensFrom?,
    if_neg (by decide), if_pos rfl]
  split
  next hnone =>
    rw [hquoted] at hnone
    cases hnone
  next raw rest hsome =>
    rw [hquoted] at hsome
    cases hsome
    rw [unescape?_flatMap]
    rfl

/-- A written number is scanned as one token if no character of a number follows. -/
theorem scans_number {n : Numeral} (hspelled : n.Spelled)
    (hread : numeral? (numeralChars n) = some n) (htail : Stops isNumberChar tail) :
    Scans (numeralChars n ++ tail) tail [.number n] := by
  intro done
  have hchars := fun c => isNumberChar_of_mem_numeralChars (c := c) hspelled
  obtain ⟨c, rest, heq⟩ := List.exists_cons_of_ne_nil (numeralChars_ne_nil hspelled)
  rw [heq] at hread hchars ⊢
  have hrun : ∀ c ∈ rest, isNumberChar c = true := fun c hc => hchars c (List.mem_cons_of_mem _ hc)
  have hfirst := hchars c List.mem_cons_self
  have hblank : isBlank c = false := by
    by_contra hblank
    simp only [isBlank, Bool.not_eq_false, Bool.or_eq_true, decide_eq_true_eq] at hblank
    rcases hblank with ((rfl | rfl) | rfl) | rfl <;> cases hfirst
  have hquote : c ≠ '"' := by
    rintro rfl
    cases hfirst
  rw [List.cons_append, tokensFrom?, if_neg (by simp [hblank]), if_neg hquote, if_pos hfirst,
    takeWhile_run hrun htail, dropWhile_run hrun htail, hread]
  rfl

/-- A word is scanned as one token. -/
theorem scans_word {c : Char} {value : Json} (hblank : isBlank c = false)
    (hquote : c ≠ '"') (hnumber : isNumberChar c = false) (hmark : punctuation? c = none)
    (hc : takeWord? (c :: cs) = some (value, tail)) : Scans (c :: cs) tail [.word value] := by
  intro done
  rw [tokensFrom?, if_neg (by simp [hblank]), if_neg hquote, if_neg (by simp [hnumber]), hmark]
  dsimp only
  split
  next hnone =>
    rw [hc] at hnone
    cases hnone
  next hsome =>
    rw [hc] at hsome
    cases hsome
    rfl

end Scans

/-! ## The tokens of a value -/

mutual
/-- The tokens that spell a value. -/
def tokens : Json → List Token
  | .null => [.word .null]
  | .bool b => [.word (.bool b)]
  | .number n => [.number n]
  | .string s => [.string s]
  | .array [] => [.openBracket, .closeBracket]
  | .array (item :: rest) => .openBracket :: (tokens item ++ (tokensItems rest ++ [.closeBracket]))
  | .object [] => [.openBrace, .closeBrace]
  | .object ((key, value) :: rest) =>
    .openBrace :: .string key :: .colon :: (tokens value ++ (tokensFields rest ++ [.closeBrace]))

/-- The tokens of the items after the first. -/
def tokensItems : List Json → List Token
  | [] => []
  | item :: rest => .comma :: (tokens item ++ tokensItems rest)

/-- The tokens of the fields after the first. -/
def tokensFields : List (String × Json) → List Token
  | [] => []
  | (key, value) :: rest => .comma :: .string key :: .colon :: (tokens value ++ tokensFields rest)
end

/-- A value whose numbers are read as they are written. -/
inductive Readable : Json → Prop
  | null : Readable .null
  | bool (b : Bool) : Readable (.bool b)
  | number {n : Numeral} (hspelled : n.Spelled) (hread : n.toFloat?.isSome = true) : Readable (.number n)
  | string (s : String) : Readable (.string s)
  | array {items : List Json} (h : ∀ item ∈ items, Readable item) : Readable (.array items)
  | object {fields : List (String × Json)} (h : ∀ field ∈ fields, Readable field.2) :
    Readable (.object fields)

/-- The text of a value is cut into its tokens, in front of a text that does not go on with the value's
last number. -/
def Cuts (j : Json) : Prop :=
  ∀ level tail, Stops isNumberChar tail → Scans (prettyBefore level j tail) tail j.tokens

theorem stops_newline (level : Nat) (cs : List Char) : Stops isNumberChar (newline level ++ cs) :=
  stops_cons.mpr rfl

theorem stops_prettyItems (level : Nat) (items : List Json) {tail : List Char}
    (h : Stops isNumberChar tail) : Stops isNumberChar (prettyItems level items tail) := by
  cases items with
  | nil => exact h
  | cons => exact stops_cons.mpr rfl

theorem stops_prettyFields (level : Nat) (fields : List (String × Json)) {tail : List Char}
    (h : Stops isNumberChar tail) : Stops isNumberChar (prettyFields level fields tail) := by
  cases fields with
  | nil => exact h
  | cons => exact stops_cons.mpr rfl

/-- A key with its colon and its value. -/
theorem scans_field {value : Json} (h : Cuts value) (level : Nat) (key : String) {tail : List Char}
    (htail : Stops isNumberChar tail) :
    Scans (stringChars key ++ ':' :: ' ' :: prettyBefore level value tail) tail
      (.string key :: .colon :: value.tokens) :=
  (scans_string key).trans (scans_mark rfl (by decide) rfl rfl (scans_blank rfl (h level tail htail)))

/-- The items of an array are cut into tokens if each of them is. -/
theorem scans_prettyItems {items : List Json} (h : ∀ item ∈ items, Cuts item) (level : Nat)
    {tail : List Char} (htail : Stops isNumberChar tail) :
    Scans (prettyItems level items tail) tail (tokensItems items) := by
  induction items with
  | nil => exact fun done => rfl
  | cons item rest ih =>
    have hitem := h item List.mem_cons_self level _ (stops_prettyItems level rest htail)
    have hrest := ih fun item hmem => h item (List.mem_cons_of_mem _ hmem)
    rw [prettyItems, tokensItems]
    exact scans_mark rfl (by decide) rfl rfl (scans_newline level (hitem.trans hrest))

/-- The fields of an object are cut into tokens if their values are. -/
theorem scans_prettyFields {fields : List (String × Json)} (h : ∀ field ∈ fields, Cuts field.2)
    (level : Nat) {tail : List Char} (htail : Stops isNumberChar tail) :
    Scans (prettyFields level fields tail) tail (tokensFields fields) := by
  induction fields with
  | nil => exact fun done => rfl
  | cons field rest ih =>
    have hfield := scans_field (h field List.mem_cons_self) level field.1
      (stops_prettyFields level rest htail)
    have hrest := ih fun field hmem => h field (List.mem_cons_of_mem _ hmem)
    rw [prettyFields, tokensFields]
    exact scans_mark rfl (by decide) rfl rfl (scans_newline level (hfield.trans hrest))

/-- What is written for a readable value is cut into its tokens. -/
theorem scans_pretty {j : Json} (h : Readable j) : Cuts j := by
  induction h with
  | null =>
    intro level tail _
    exact scans_word rfl (by decide) rfl rfl rfl
  | bool b =>
    intro level tail _
    cases b with
    | false => exact scans_word rfl (by decide) rfl rfl rfl
    | true => exact scans_word rfl (by decide) rfl rfl rfl
  | number hspelled hread =>
    intro level tail htail
    -- a numeral is scanned up to a character that cannot continue it, which the text after it has
    exact scans_number hspelled (numeral?_numeralChars hspelled hread) htail
  | string s =>
    intro level tail _
    exact scans_string s
  | @array items _ ih =>
    intro level tail _
    -- the bracket ends the array, whatever follows
    have hclose : Scans (']' :: tail) tail [.closeBracket] :=
      scans_mark rfl (by decide) rfl rfl fun _ => rfl
    cases items with
    | nil => exact scans_mark rfl (by decide) rfl rfl hclose
    | cons item rest =>
      -- a newline follows the last item, and a comma or that newline each other one
      have hstop := stops_newline level (']' :: tail)
      have hitem := ih item List.mem_cons_self (level + 1) _ (stops_prettyItems (level + 1) rest hstop)
      have hrest := scans_prettyItems (fun item hmem => ih item (List.mem_cons_of_mem _ hmem))
        (level + 1) hstop
      rw [prettyBefore, tokens]
      exact scans_mark rfl (by decide) rfl rfl
        (scans_newline _ (hitem.trans (hrest.trans (scans_newline level hclose))))
  | @object fields _ ih =>
    intro level tail _
    -- likewise for an object, whose fields begin with their names
    have hclose : Scans ('\x7d' :: tail) tail [.closeBrace] :=
      scans_mark rfl (by decide) rfl rfl fun _ => rfl
    cases fields with
    | nil => exact scans_mark rfl (by decide) rfl rfl hclose
    | cons field rest =>
      have hstop := stops_newline level ('\x7d' :: tail)
      have hfield := scans_field (ih field List.mem_cons_self) (level + 1) field.1
        (stops_prettyFields (level + 1) rest hstop)
      have hrest := scans_prettyFields (fun field hmem => ih field (List.mem_cons_of_mem _ hmem))
        (level + 1) hstop
      rw [prettyBefore, tokens]
      exact scans_mark rfl (by decide) rfl rfl
        (scans_newline _ (hfield.trans (hrest.trans (scans_newline level hclose))))

/-! ## The parser's machine -/

/-- The machine reads a value where one must follow, whatever is open around it. -/
def Completes (j : Json) : Prop :=
  ∀ stack rest, (j.tokens ++ rest).foldlM State.step (.value stack) =
    rest.foldlM State.step (.done j stack)

/-- The first item of an array is read like any other: no value starts with a bracket that closes. -/
theorem foldlM_firstItem (j : Json) (stack : List Frame) (rest : List Token) :
    (j.tokens ++ rest).foldlM State.step (.firstItem stack) =
      (j.tokens ++ rest).foldlM State.step (.value (.item [] :: stack)) := by
  cases j with
  | null | bool | number | string => rfl
  | array items => cases items <;> rfl
  | object fields => cases fields <;> rfl

/-- The machine collects items up to the closing bracket. -/
theorem Completes.items {items : List Json} (h : ∀ item ∈ items, Completes item)
    (before : List Json) (last : Json) (stack : List Frame) (rest : List Token) :
    (tokensItems items ++ .closeBracket :: rest).foldlM State.step (.done last (.item before :: stack)) =
      rest.foldlM State.step (.done (.array ((last :: before).reverse ++ items)) stack) := by
  induction items generalizing before last with
  | nil =>
    rw [List.append_nil]
    rfl
  | cons item items ih =>
    have hitem := h item List.mem_cons_self (.item (last :: before) :: stack)
    have hitems := ih fun item hmem => h item (List.mem_cons_of_mem _ hmem)
    rw [tokensItems, List.cons_append, List.append_assoc]
    change (item.tokens ++ _).foldlM State.step (.value (.item (last :: before) :: stack)) = _
    rw [hitem, hitems]
    simp

/-- The machine collects fields up to the closing brace. -/
theorem Completes.fields {fields : List (String × Json)} (h : ∀ field ∈ fields, Completes field.2)
    (before : List (String × Json)) (key : String) (last : Json) (stack : List Frame)
    (rest : List Token) :
    (tokensFields fields ++ .closeBrace :: rest).foldlM State.step
        (.done last (.field before key :: stack)) =
      rest.foldlM State.step (.done (.object (((key, last) :: before).reverse ++ fields)) stack) := by
  induction fields generalizing before key last with
  | nil =>
    rw [List.append_nil]
    rfl
  | cons field fields ih =>
    have hfield := h field List.mem_cons_self (.field ((key, last) :: before) field.1 :: stack)
    have hfields := ih fun field hmem => h field (List.mem_cons_of_mem _ hmem)
    rw [tokensFields, List.cons_append, List.cons_append, List.cons_append, List.append_assoc]
    change (field.2.tokens ++ _).foldlM State.step
      (.value (.field ((key, last) :: before) field.1 :: stack)) = _
    rw [hfield, hfields]
    simp

theorem Completes.array {items : List Json} (h : ∀ item ∈ items, Completes item) :
    Completes (.array items) := by
  intro stack rest
  cases items with
  | nil => rfl
  | cons item items =>
    have hitems := Completes.items (fun item hmem => h item (List.mem_cons_of_mem _ hmem))
      [] item stack rest
    rw [tokens, List.cons_append, List.append_assoc, List.append_assoc, List.singleton_append]
    change (item.tokens ++ _).foldlM State.step (.firstItem stack) = _
    rw [foldlM_firstItem, h item List.mem_cons_self, hitems]
    rfl

theorem Completes.object {fields : List (String × Json)} (h : ∀ field ∈ fields, Completes field.2) :
    Completes (.object fields) := by
  intro stack rest
  cases fields with
  | nil => rfl
  | cons field fields =>
    have hfields := Completes.fields (fun field hmem => h field (List.mem_cons_of_mem _ hmem))
      [] field.1 field.2 stack rest
    rw [tokens, List.cons_append, List.cons_append, List.cons_append, List.append_assoc,
      List.append_assoc, List.singleton_append]
    change (field.2.tokens ++ _).foldlM State.step (.value (.field [] field.1 :: stack)) = _
    rw [h field List.mem_cons_self, hfields]
    rfl

mutual
theorem run_tokens : ∀ j, Completes j
  | .null | .bool _ | .number _ | .string _ => fun _ _ => rfl
  | .array items => Completes.array (run_tokensItems items)
  | .object fields => Completes.object (run_tokensFields fields)

theorem run_tokensItems : ∀ items : List Json, ∀ item ∈ items, Completes item
  | [] => by simp
  | item :: items => List.forall_mem_cons.mpr ⟨run_tokens item, run_tokensItems items⟩

theorem run_tokensFields : ∀ fields : List (String × Json), ∀ field ∈ fields, Completes field.2
  | [] => by simp
  | (_, value) :: fields => List.forall_mem_cons.mpr ⟨run_tokens value, run_tokensFields fields⟩
end

theorem ofTokens?_tokens (j : Json) : ofTokens? j.tokens = some j := by
  have hrun := run_tokens j [] []
  rw [List.append_nil] at hrun
  rw [ofTokens?, hrun]
  rfl

/-- Reading undoes writing. -/
theorem parse?_pretty {j : Json} (h : Readable j) : parse? j.pretty = some j := by
  have hscan := scans_pretty h 0 [] stops_nil []
  have htokens : tokens? j.pretty.toList = some j.tokens := by
    rw [tokens?, pretty, String.toList_ofList, hscan, tokensFrom?]
    simp
  simp [parse?, htokens, ofTokens?_tokens]

end Multistage.Json
