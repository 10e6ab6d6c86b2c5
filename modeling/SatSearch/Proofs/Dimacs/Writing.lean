import Mathlib.Data.List.TakeWhile
import SatSearch.Proofs.Dimacs.Reading
import SatSearch.Proofs.Store

/-!
# Writing — what is written is read as it was meant

A formula is written as a problem line and one line for each given clause, and every line as words
with single blanks between them. Reading takes lines and words apart again, and a decimal numeral is
read as the number it was written for. A literal that is stored names one of few enough variables
for its number to fit 32 bits. So what is read back is the formula without the clauses that were
learned, down to clauses without literals, tautologies, and variables that occur nowhere.
-/

namespace SatSearch
namespace Dimacs

open Grammar

/-! ## Numerals -/

/-- Digits are read as the number that they make together with what was read before them. -/
theorem digitsFrom_of_forall {cs : List Char} (h : ∀ c ∈ cs, c.isDigit = true) : ∀ n : Nat,
    Text.digitsFrom n cs = some (Nat.ofDigitChars 10 cs n) := by
  induction cs with
  | nil => exact fun _ => rfl
  | cons c cs ih =>
      intro n
      have hdigit : Grammar.isDigit c = true := h c List.mem_cons_self
      have hc : '0' ≤ c ∧ c ≤ '9' := by simpa [Grammar.isDigit] using hdigit
      rw [Text.digitsFrom, if_pos hc, ih fun c' hc' => h c' (List.mem_cons_of_mem c hc'),
        Nat.ofDigitChars_cons]
      rfl

theorem isDigit_of_mem_toDigits {n : Nat} {c : Char} (h : c ∈ Nat.toDigits 10 n) :
    c.isDigit = true :=
  Nat.isDigit_of_mem_toDigits (by omega) (by omega) h

theorem natural?_toDigits (n : Nat) : natural? (Nat.toDigits 10 n) = some n := by
  rcases List.exists_cons_of_ne_nil (Nat.toDigits_ne_nil (n := n) (b := 10)) with ⟨c, cs, hcs⟩
  rw [← digits?_eq, hcs]
  change Text.digitsFrom 0 (c :: cs) = some n
  rw [← hcs, digitsFrom_of_forall fun _ => isDigit_of_mem_toDigits, Nat.ofDigitChars_ten_toDigits]

/-- A numeral without a sign begins with a digit. -/
theorem splitSign_toDigits (n : Nat) : splitSign (Nat.toDigits 10 n) = (1, Nat.toDigits 10 n) := by
  have hdigit : ∀ c ∈ Nat.toDigits 10 n, c.isDigit = true := fun _ => isDigit_of_mem_toDigits
  apply splitSign.eq_3
  · intro cs hcs
    rw [hcs] at hdigit
    exact absurd (hdigit '+' List.mem_cons_self) (by decide)
  · intro cs hcs
    rw [hcs] at hdigit
    exact absurd (hdigit '-' List.mem_cons_self) (by decide)

/-- A natural number that needs at most 64 bits is read as it was written. -/
theorem size?_toString {n : Nat} (h : n < 2 ^ 64) : size? (toString n).toList = some n := by
  have hhead : (Nat.toDigits 10 n).head? ≠ some '-' := by
    intro hhead
    rcases List.head?_eq_some_iff.1 hhead with ⟨cs, hcs⟩
    have hminus : '-' ∈ Nat.toDigits 10 n := by simp [hcs]
    exact absurd (isDigit_of_mem_toDigits hminus) (by decide)
  rw [Nat.toString_eq_repr, Nat.toList_repr, size?, if_neg hhead, splitSign_toDigits,
    natural?_toDigits]
  simpa using h

/-- A literal is written as the number of its variable, counted from one, with a sign if it is
negated. -/
theorem toList_text (l : Literal) : l.text.toList =
    (if l.positive then [] else ['-']) ++ Nat.toDigits 10 (l.var + 1) := by
  rcases l with ⟨var, positive⟩
  rw [← Nat.toList_repr]
  cases positive with
  | true => rfl
  | false => exact String.toList_append

/-- A written literal is read as its signed number if that fits 32 bits, and not at all if not. -/
theorem integer?_text (l : Literal) : integer? l.text.toList =
    (some l.signed).filter fun n => -2 ^ 31 ≤ n ∧ n < 2 ^ 31 := by
  rw [toList_text]
  rcases l with ⟨var, positive⟩
  cases positive with
  | true => simp [integer?, splitSign_toDigits, natural?_toDigits, Literal.signed]
  | false => simp [integer?, splitSign, natural?_toDigits, Literal.signed]

/-! ## Words -/

/-- Something that is written without blanks. -/
def IsWord (w : String) : Prop :=
  w.toList ≠ [] ∧ ∀ c ∈ w.toList, Text.isBlank c = false

theorem isBlank_of_isDigit {c : Char} (h : c.isDigit = true) : Text.isBlank c = false := by
  have hc : 48 ≤ c.toNat ∧ c.toNat ≤ 57 := by
    simpa [Char.isDigit, UInt32.le_iff_toNat_le] using h
  simp only [Text.isBlank, Bool.or_eq_false_iff, Bool.and_eq_false_iff, decide_eq_false_iff_not,
    beq_eq_false_iff_ne]
  omega

theorem isWord_text (l : Literal) : IsWord l.text := by
  rw [IsWord, toList_text]
  constructor
  · simp [Nat.toDigits_ne_nil]
  · intro c hc
    rcases List.mem_append.1 hc with hc | hc
    · have hsign : c = '-' := by
        split at hc
        · cases hc
        · exact List.mem_singleton.1 hc
      subst hsign
      decide
    · exact isBlank_of_isDigit (isDigit_of_mem_toDigits hc)

theorem isWord_toString (n : Nat) : IsWord (toString n) := by
  rw [IsWord, Nat.toString_eq_repr, Nat.toList_repr]
  exact ⟨Nat.toDigits_ne_nil, fun _ hc => isBlank_of_isDigit (isDigit_of_mem_toDigits hc)⟩

/-- Words with single blanks between them are found again. -/
theorem words_intercalate {ws : List String} (h : ∀ w ∈ ws, IsWord w) :
    words (" ".intercalate ws) = ws.map String.toList := by
  induction ws with
  | nil => rfl
  | cons w ws ih =>
      rcases h w List.mem_cons_self with ⟨hne, hw⟩
      have ih := ih fun w' hw' => h w' (List.mem_cons_of_mem w hw')
      cases ws with
      | nil =>
          rw [words, String.intercalate_singleton, List.splitOnP_eq_singleton hw]
          simp [hne]
      | cons w' ws =>
          have hsplit : (" ".intercalate (w :: w' :: ws)).toList =
              w.toList ++ ' ' :: (" ".intercalate (w' :: ws)).toList := by
            rw [String.intercalate_cons_cons, String.toList_append, String.toList_append,
              List.append_assoc]
            rfl
          rw [words, hsplit, List.splitOnP_append_cons_of_forall_mem hw ' ' rfl,
            List.filter_cons_of_pos (by simpa using hne), List.map_cons, ← ih]
          rfl

/-- A character of a line of words is no blank but the one between words. -/
theorem eq_or_isBlank_of_mem_intercalate {ws : List String} {c : Char}
    (h : ∀ w ∈ ws, IsWord w) (hc : c ∈ (" ".intercalate ws).toList) :
    c = ' ' ∨ Text.isBlank c = false := by
  induction ws with
  | nil => cases hc
  | cons w ws ih =>
      rcases h w List.mem_cons_self with ⟨_, hw⟩
      cases ws with
      | nil =>
          rw [String.intercalate_singleton] at hc
          exact .inr (hw c hc)
      | cons w' ws =>
          rw [String.intercalate_cons_cons, String.toList_append, String.toList_append,
            List.mem_append, List.mem_append] at hc
          rcases hc with (hc | hc) | hc
          · exact .inr (hw c hc)
          · exact .inl (List.mem_singleton.1 hc)
          · exact ih (fun w' hw' => h w' (List.mem_cons_of_mem w hw')) hc

/-! ## Lines -/

/-- The bytes that a text is written with. -/
def encoded (text : String) : List UInt8 :=
  text.toUTF8.data.toList

theorem encoded_append (s t : String) : encoded (s ++ t) = encoded s ++ encoded t := by
  simp [encoded, ByteArray.data_append]

theorem encoded_eq (text : String) : encoded text = text.toList.flatMap String.utf8EncodeChar := by
  rw [encoded, String.toUTF8_eq_toByteArray, ← String.utf8Encode_toList, List.utf8Encode,
    List.data_toByteArray]

theorem content?_encoded (text : String) : content? (encoded text) = some text := by
  have hvalid : text.toUTF8.IsValidUTF8 := text.isValidUTF8
  rw [content?, encoded, Array.toArray_toList, String.fromUTF8?, dif_pos hvalid]
  rfl

/-- A byte below 128 stands for itself, and for nothing else. -/
theorem toNat_of_mem_utf8EncodeChar {c : Char} {b : UInt8} (hb : b ∈ String.utf8EncodeChar c)
    (hlow : b.toNat < 128) : c.toNat = b.toNat := by
  have hval : c.val.toNat = c.toNat := rfl
  rw [String.utf8EncodeChar] at hb
  split at hb
  · rw [List.mem_singleton] at hb
    subst hb
    rw [UInt8.toNat_ofNat', hval]
    omega
  · -- The bytes of a longer encoding are all 128 or more.
    have hhigh : ∀ n, 128 ≤ n → n < 256 → b ≠ UInt8.ofNat n := by
      rintro n hle hlt rfl
      rw [UInt8.toNat_ofNat'] at hlow
      omega
    exfalso
    split at hb
    · rcases List.mem_pair.1 hb with hb | hb
      · exact hhigh _ (by omega) (by omega) hb
      · exact hhigh _ (by omega) (by omega) hb
    · split at hb
      · simp only [List.mem_cons, List.not_mem_nil, or_false] at hb
        rcases hb with hb | hb | hb <;> exact hhigh _ (by omega) (by omega) hb
      · simp only [List.mem_cons, List.not_mem_nil, or_false] at hb
        rcases hb with hb | hb | hb | hb <;> exact hhigh _ (by omega) (by omega) hb

/-- The line that is written with these words. -/
def lineOf (ws : List String) : List UInt8 :=
  encoded (" ".intercalate ws)

/-- The text that has these lines of words. -/
def textOf (wss : List (List String)) : String :=
  String.join (wss.map fun ws => " ".intercalate ws ++ "\n")

/-- A line of words holds no byte that could end it. -/
theorem ne_of_mem_lineOf {ws : List String} {b : UInt8} (h : ∀ w ∈ ws, IsWord w)
    (hb : b ∈ lineOf ws) : b ≠ 10 ∧ b ≠ 13 := by
  rw [lineOf, encoded_eq, List.mem_flatMap] at hb
  rcases hb with ⟨c, hc, hb⟩
  have hnot : ∀ n, n < 128 → Text.isBlank (Char.ofNat n) = true → n ≠ 32 → b.toNat ≠ n := by
    rintro n hlow hblank hspace rfl
    have hn := toNat_of_mem_utf8EncodeChar hb hlow
    rw [← hn, Char.ofNat_toNat] at hblank
    rcases eq_or_isBlank_of_mem_intercalate h hc with rfl | hnone
    · exact hspace hn.symm
    · rw [hnone] at hblank
      cases hblank
  constructor
  · rintro rfl
    exact hnot 10 (by omega) (by decide) (by omega) rfl
  · rintro rfl
    exact hnot 13 (by omega) (by decide) (by omega) rfl

/-- A line feed closes what is in front of it. -/
theorem lines_append_cons {line : List UInt8} (h : ∀ b ∈ line, b ≠ 10 ∧ b ≠ 13)
    (rest : List UInt8) : lines (line ++ 10 :: rest) = line :: lines rest := by
  have hfeed : ∀ b ∈ line, (b == 10) = false := by
    intro b hb
    simpa using (h b hb).1
  have hreturn : dropReturn line = line := by
    rw [dropReturn, if_neg]
    intro hlast
    exact (h 13 (List.mem_of_getLast? hlast)).2 rfl
  rw [lines, closed_append_cons hfeed rfl, leftOpen_append_cons hfeed rfl, List.map_cons, hreturn]
  rfl

/-- Lines of words are found again. -/
theorem lines_textOf {wss : List (List String)} (h : ∀ ws ∈ wss, ∀ w ∈ ws, IsWord w) :
    lines (encoded (textOf wss)) = wss.map lineOf := by
  induction wss with
  | nil => rfl
  | cons ws wss ih =>
      have htext : encoded (textOf (ws :: wss)) = lineOf ws ++ 10 :: encoded (textOf wss) := by
        have hfeed : encoded "\n" = [10] := by decide
        rw [textOf, List.map_cons, String.join_cons, encoded_append, encoded_append, hfeed,
          List.append_assoc]
        rfl
      rw [htext, lines_append_cons fun b => ne_of_mem_lineOf (h ws List.mem_cons_self),
        ih fun ws' hws' => h ws' (List.mem_cons_of_mem ws hws'), List.map_cons]

theorem wordsOf_lineOf {ws : List String} (h : ∀ w ∈ ws, IsWord w) :
    wordsOf (lineOf ws) = ws.map String.toList := by
  rw [wordsOf, lineOf, content?_encoded, Option.map_some, Option.getD_some, words_intercalate h]

/-! ## The lines of a document -/

/-- A number begins with a sign or a digit. -/
theorem integer?_cons_eq_none {c : Char} (cs : List Char) (hplus : c ≠ '+') (hminus : c ≠ '-')
    (hdigit : Grammar.isDigit c = false) : integer? (c :: cs) = none := by
  have hsign : splitSign (c :: cs) = (1, c :: cs) :=
    splitSign.eq_3 (c :: cs) (fun _ h => hplus (List.cons.inj h).1)
      fun _ h => hminus (List.cons.inj h).1
  simp [integer?, hsign, natural?, hdigit]

/-- A line of numbers is of no special kind. -/
theorem plain_of_isSome {ws : List (List Char)} (hne : ws ≠ [])
    (h : ∀ w ∈ ws, (integer? w).isSome) :
    beginsWith '%' ws = false ∧ isSkipped ws = false ∧ isProblem ws = false := by
  have hfirst : ∀ c cs rest, c ≠ '+' → c ≠ '-' → Grammar.isDigit c = false →
      ws ≠ (c :: cs) :: rest := by
    rintro c cs rest hplus hminus hdigit rfl
    have hsome := h (c :: cs) List.mem_cons_self
    rw [integer?_cons_eq_none cs hplus hminus hdigit] at hsome
    cases hsome
  refine ⟨?_, ?_, ?_⟩
  · rw [Bool.eq_false_iff, ne_eq, beginsWith_iff]
    rintro ⟨w, rest, hws⟩
    exact hfirst '%' w rest (by decide) (by decide) (by decide) hws
  · rw [Bool.eq_false_iff, ne_eq, isSkipped, Bool.or_eq_true, List.isEmpty_iff, beginsWith_iff]
    rintro (hempty | ⟨w, rest, hws⟩)
    · exact hne hempty
    · exact hfirst 'c' w rest (by decide) (by decide) (by decide) hws
  · rw [Bool.eq_false_iff, ne_eq, isProblem_iff]
    rintro ⟨rest, hws⟩
    exact hfirst 'p' [] rest (by decide) (by decide) (by decide) hws

/-- A line of the words breaks no rule and does not end the document. -/
structure Readable (ws : List String) : Prop where
  isWord : ∀ w ∈ ws, IsWord w
  isClosing_eq : isClosing (lineOf ws) = false
  fault?_eq : ∀ number, fault? number (lineOf ws) = none

/-- A line of the words declares these sizes, if any, and adds these numbers. -/
structure Says (ws : List String) (header : Option Header) (ns : List Int) : Prop
    extends Readable ws where
  header?_eq : header? (wordsOf (lineOf ws)) = header
  numbers_eq : numbers (lineOf ws) = ns

/-- A text of lines that can be read is a document that says what its lines say. -/
theorem read_textOf {wss : List (List String)} (h : ∀ ws ∈ wss, Readable ws) :
    Document.read (textOf wss).toUTF8 =
      .ok ⟨(wss.filterMap fun ws => header? (wordsOf (lineOf ws))).getLast?,
        clausesOf (wss.flatMap fun ws => numbers (lineOf ws))⟩ := by
  have hbody : body (textOf wss).toUTF8.data.toList = wss.map lineOf := by
    rw [body, ← encoded, lines_textOf fun ws hws => (h ws hws).isWord]
    rw [List.takeWhile_eq_self_iff]
    intro line hline
    rcases List.mem_map.1 hline with ⟨ws, hws, rfl⟩
    rw [(h ws hws).isClosing_eq]
    rfl
  have hfault : firstFault? (wss.map lineOf) = none := by
    rw [firstFault?, List.findSome?_eq_none_iff]
    rintro ⟨line, number⟩ hline
    rcases List.mem_map.1 (List.fst_mem_of_mem_zipIdx hline) with ⟨ws, hws, rfl⟩
    exact (h ws hws).fault?_eq number
  rw [Document.read_eq, hbody, hfault, List.filterMap_map, List.flatMap_map]
  rfl

/-- A problem line declares the sizes that are written there. -/
theorem says_problem {numVars numClauses : Nat} (hvars : numVars < 2 ^ 64)
    (hclauses : numClauses < 2 ^ 64) :
    Says ["p", "cnf", toString numVars, toString numClauses] (some ⟨numVars, numClauses⟩) [] := by
  have hwords : ∀ w ∈ ["p", "cnf", toString numVars, toString numClauses], IsWord w := by
    intro w hw
    simp only [List.mem_cons, List.not_mem_nil, or_false] at hw
    rcases hw with rfl | rfl | rfl | rfl
    · exact ⟨by decide, by simp [Text.isBlank]⟩
    · exact ⟨by decide, by simp [Text.isBlank]⟩
    · exact isWord_toString numVars
    · exact isWord_toString numClauses
  have hwordsOf := wordsOf_lineOf hwords
  have hheader : header? (["p", "cnf", toString numVars, toString numClauses].map String.toList) =
      some ⟨numVars, numClauses⟩ := by
    have hp : "p".toList = ['p'] ∧ "cnf".toList = ['c', 'n', 'f'] := by decide
    simp only [List.map_cons, List.map_nil, header?, if_pos hp, size?_toString hvars,
      size?_toString hclauses]
    rfl
  refine ⟨⟨hwords, ?_, ?_⟩, ?_, ?_⟩
  · rw [isClosing, hwordsOf]
    rfl
  · intro number
    rw [fault?, lineOf, content?_encoded]
    simp only [words_intercalate hwords, hheader]
    rfl
  · rw [hwordsOf, hheader]
  · rw [numbers, hwordsOf]
    rfl

/-- A line of numbers adds them. -/
theorem says_numbers {ws : List String} {ns : List Int} (hne : ws ≠ [])
    (hwords : ∀ w ∈ ws, IsWord w)
    (h : ws.map (fun w => integer? w.toList) = ns.map some) : Says ws none ns := by
  have hwordsOf := wordsOf_lineOf hwords
  have hsome : ∀ w ∈ ws.map String.toList, (integer? w).isSome := by
    intro w hw
    rcases List.mem_map.1 hw with ⟨w', hw', rfl⟩
    have hmem : integer? w'.toList ∈ ns.map some := h ▸ List.mem_map_of_mem hw'
    rcases List.mem_map.1 hmem with ⟨n, _, hn⟩
    rw [← hn]
    rfl
  -- The line is read for its numbers, as it begins with one.
  rcases plain_of_isSome (by simpa using hne) hsome with ⟨hends, hskipped, hproblem⟩
  have hnone : (ws.map String.toList).find? (fun w => (integer? w).isNone) = none := by
    rw [List.find?_eq_none]
    intro w hw
    simpa using Option.isSome_iff_ne_none.1 (hsome w hw)
  refine ⟨⟨hwords, ?_, ?_⟩, ?_, ?_⟩
  · rw [isClosing, hwordsOf, hends]
  · intro number
    rw [fault?, lineOf, content?_encoded]
    simp only [words_intercalate hwords, hskipped, hproblem, hnone]
    rfl
  · rw [hwordsOf, header?_eq_none hproblem]
  · rw [numbers, hwordsOf, hskipped, hproblem]
    calc
      (ws.map String.toList).filterMap integer?
      _ = (ws.map fun w => integer? w.toList).filterMap id := by simp [List.filterMap_map]
      _ = (ns.map some).filterMap id := by rw [h]
      _ = ns := by simp [List.filterMap_map]

/-! ## The document of a formula -/

/-- The words of the problem line. -/
def problemWords (f : Formula) : List String :=
  ["p", "cnf", toString f.numVars, toString f.given.size]

/-- The words of the line of a clause. -/
def clauseWords (c : Clause) : List String :=
  c.literals.map Literal.text ++ ["0"]

theorem render_eq (f : Formula) :
    render f = textOf (problemWords f :: f.given.toList.map clauseWords) := by
  have hproblem : " ".intercalate (problemWords f) =
      "p cnf " ++ toString f.numVars ++ " " ++ toString f.given.size := by
    simp only [problemWords, String.intercalate_cons_cons, String.intercalate_singleton,
      ← String.append_assoc]
    rfl
  rw [render, textOf, List.map_cons, hproblem, List.map_map]
  rfl

/-- A clause over few enough variables is written as its numbers, and a zero. -/
theorem says_clause {c : Clause} (h : ∀ l ∈ c.literals, l.var < Formula.maxVars) :
    Says (clauseWords c) none (c.literals.map Literal.signed ++ [0]) := by
  apply says_numbers (by simp [clauseWords])
  · intro w hw
    rcases List.mem_append.1 hw with hw | hw
    · rcases List.mem_map.1 hw with ⟨l, _, rfl⟩
      exact isWord_text l
    · rw [List.mem_singleton.1 hw]
      exact isWord_toString 0
  · have hzero : integer? "0".toList = some 0 := by decide
    have hliterals : ∀ l ∈ c.literals, integer? l.text.toList = some l.signed := by
      intro l hl
      have hlt := h l hl
      have hfits : -2 ^ 31 ≤ l.signed ∧ l.signed < 2 ^ 31 := by
        simp only [Formula.maxVars] at hlt
        simp only [Literal.signed]
        split <;> omega
      rw [integer?_text]
      simpa using hfits
    simp only [clauseWords, List.map_append, List.map_map, List.map_cons, List.map_nil, hzero]
    congr 1
    exact List.map_congr_left hliterals

/-- Zeros close the clauses that were written. -/
theorem clausesOf_flatMap (lss : List (List Literal)) :
    clausesOf (lss.flatMap fun ls => ls.map Literal.signed ++ [0]) = lss := by
  induction lss with
  | nil => rfl
  | cons ls lss ih =>
      have hliteral : ∀ l : Literal, literal l.signed = l := by
        intro l
        have h := Literal.ofSigned?_signed l
        rw [Literal.ofSigned?] at h
        split at h
        · cases h
        · exact Option.some.inj h
      have hnonzero : ∀ n ∈ ls.map Literal.signed, (n == 0) = false := by
        intro n hn
        rcases List.mem_map.1 hn with ⟨l, _, rfl⟩
        rw [beq_eq_false_iff_ne, Literal.signed]
        split <;> omega
      have hliterals : (ls.map Literal.signed).map literal = ls := by
        simp [Function.comp_def, hliteral]
      rw [List.flatMap_cons, List.append_assoc, List.singleton_append, clausesOf,
        closed_append_cons hnonzero rfl, leftOpen_append_cons hnonzero rfl, List.cons_append,
        List.map_cons, hliterals]
      exact congrArg _ ih

/-- What is written says the sizes of the formula and the literals of its given clauses. -/
theorem read_render {f : Formula} (hvars : f.numVars ≤ Formula.maxVars)
    (hsize : f.given.size < 2 ^ 64)
    (hgiven : ∀ c ∈ f.given, ∀ l ∈ c.literals, l.var < Formula.maxVars) :
    Document.read (render f).toUTF8 =
      .ok ⟨some ⟨f.numVars, f.given.size⟩, f.given.toList.map Clause.literals⟩ := by
  have hproblem : Says (problemWords f) (some ⟨f.numVars, f.given.size⟩) [] :=
    says_problem (by simp only [Formula.maxVars] at hvars; omega) hsize
  have hclause : ∀ c ∈ f.given.toList,
      Says (clauseWords c) none (c.literals.map Literal.signed ++ [0]) :=
    fun c hc => says_clause (hgiven c (Array.mem_toList_iff.1 hc))
  have hreadable : ∀ ws ∈ problemWords f :: f.given.toList.map clauseWords, Readable ws := by
    intro ws hws
    rcases List.mem_cons.1 hws with rfl | hws
    · exact hproblem.toReadable
    · rcases List.mem_map.1 hws with ⟨c, hc, rfl⟩
      exact (hclause c hc).toReadable
  -- The sizes are declared in the first line and nowhere else, and the numbers are in the others.
  have hheaders : (f.given.toList.map clauseWords).filterMap
      (fun ws => header? (wordsOf (lineOf ws))) = [] := by
    rw [List.filterMap_eq_nil_iff]
    intro ws hws
    rcases List.mem_map.1 hws with ⟨c, hc, rfl⟩
    exact (hclause c hc).header?_eq
  have hnumbers : (f.given.toList.map clauseWords).flatMap (fun ws => numbers (lineOf ws)) =
      (f.given.toList.map Clause.literals).flatMap fun ls => ls.map Literal.signed ++ [0] := by
    rw [List.flatMap_map, List.flatMap_map]
    exact List.flatMap_congr fun c hc => (hclause c hc).numbers_eq
  rw [render_eq, read_textOf hreadable, List.filterMap_cons, hproblem.header?_eq, hheaders,
    List.flatMap_cons, hproblem.numbers_eq, List.nil_append, hnumbers, clausesOf_flatMap]
  rfl

end Dimacs

/-! ## From formula to formula -/

namespace Formula

variable {f f' : Formula}

/-- The formulas that adding clauses and learning any clauses whatever leads to. -/
inductive Stored : Formula → Prop
  | built {f : Formula} : f.Built → Stored f
  | added {f f' : Formula} {ls : List Literal} {i : Nat} :
      Stored f → f.add ls = .ok (i, f') → Stored f'
  | learned {f : Formula} (c : Clause) : Stored f → Stored (f.learn c).2

/-- The given clauses are marked so, no literal is repeated in them, and all of them are in range of
the variables, which are not too many. Nothing is said about learned clauses. -/
structure Writable (f : Formula) : Prop where
  numVars_le : f.numVars ≤ maxVars
  given : ∀ c ∈ f.given, c.learnt = false ∧ c.Proper f.numVars

theorem Writable.empty {n : Nat} (h : Formula.empty n = .ok f) : f.Writable := by
  unfold Formula.empty at h
  split at h
  · cases h
  · rename_i hle
    cases h
    exact ⟨Nat.le_of_not_lt hle, by simp⟩

theorem Writable.add {ls : List Literal} {i : Nat} (h : f.Writable)
    (hadd : f.add ls = .ok (i, f')) : f'.Writable := by
  rcases add_eq_ok hadd with ⟨_, rfl, hrange⟩
  refine ⟨h.numVars_le, ?_⟩
  intro c hc
  rcases mem_given_extended.1 hc with hc | rfl
  · exact h.given c hc
  · exact ⟨rfl, nodup_eraseDups ls, hrange⟩

theorem Stored.writable (h : f.Stored) : f.Writable := by
  induction h with
  | built hf => exact hf.invariant .empty .add
  | added _ hadd ih => exact ih.add hadd
  | learned _ _ ih => exact ⟨ih.numVars_le, ih.given⟩

/-- Clauses like the given ones are taken in as they are. -/
theorem addAll_literals (cs : List Clause) : ∀ f : Formula,
    (∀ c ∈ cs, c.learnt = false ∧ c.Proper f.numVars) →
    f.addAll (cs.map Clause.literals) = .ok ⟨f.numVars, f.given ++ cs.toArray, f.learnts⟩ := by
  induction cs with
  | nil =>
      intro f _
      simp [addAll]
  | cons c cs ih =>
      intro f hcs
      rcases hcs c List.mem_cons_self with ⟨hgiven, hproper⟩
      -- Nothing is repeated in the clause, so adding it drops nothing.
      have hsame : Clause.given c.literals = c := by
        rcases c with ⟨ls, learnt⟩
        cases hgiven
        rw [Clause.given, eraseDups_of_nodup hproper.nodup]
      have hadd : f.add c.literals = .ok (f.given.size, f.extended c.literals) := by
        have hnone : c.literals.find? (fun l => f.numVars ≤ l.var) = none := by
          rw [List.find?_eq_none]
          intro l hl
          have := hproper.inRange l hl
          simpa using this
        rw [add_eq, hsame, hnone]
      have hrest := ih (f.extended c.literals) fun c' hc' => hcs c' (List.mem_cons_of_mem c hc')
      simp only [List.map_cons, addAll, hadd, hrest]
      simp [extended, hsame]

end Formula

namespace Dimacs

/-- Whatever clauses a formula was given and whatever was learned, reading what is written for it
gives the formula of its given clauses, over the same variables. So it gives the formula itself
unless something was learned. The number of clauses fits 64 bits, as the length of whatever is held
in memory does. -/
theorem parseText_render {f : Formula} (h : f.Stored) (hsize : f.given.size < 2 ^ 64) :
    parseText (render f) = .ok ⟨f.numVars, f.given, #[]⟩ ∧
      (parseText (render f) = .ok f ↔ f.learnts = #[]) := by
  have hwritable := h.writable
  have hread := read_render hwritable.numVars_le hsize fun c hc l hl =>
    ((hwritable.given c hc).2.inRange l hl).trans_le hwritable.numVars_le
  have hempty : Formula.empty f.numVars = .ok ⟨f.numVars, #[], #[]⟩ := by
    rw [Formula.empty, if_neg (Nat.not_lt.2 hwritable.numVars_le)]
  have hformula : Document.formula ⟨some ⟨f.numVars, f.given.size⟩,
      f.given.toList.map Clause.literals⟩ = .ok ⟨f.numVars, f.given, #[]⟩ := by
    have haddAll := Formula.addAll_literals f.given.toList ⟨f.numVars, #[], #[]⟩
      fun c hc => hwritable.given c (Array.mem_toList_iff.1 hc)
    simp only [Document.formula, Document.numVars, hempty, bind, Except.bind, haddAll]
    simp
  have hparse : parseText (render f) = .ok ⟨f.numVars, f.given, #[]⟩ := by
    simp only [parseText, parse, hread, bind, Except.bind, hformula]
  refine ⟨hparse, ?_⟩
  rw [hparse]
  rcases f with ⟨numVars, given, learnts⟩
  simp [eq_comm]

/-- An empty clause, a tautology, a variable that occurs in no given clause, and a learned clause
that is not written, with a literal whose number would be too large to be read. -/
theorem parseText_render_sample : ∃ f : Formula, f.Stored ∧ f.given.size < 2 ^ 64 ∧
    f.learnts = #[⟨[⟨2147483647, true⟩], true⟩] ∧ render f = "p cnf 3 2\n0\n-2 2 0\n" ∧
    parseText (render f) =
      .ok ⟨3, #[⟨[], false⟩, ⟨[⟨1, false⟩, ⟨1, true⟩], false⟩], #[]⟩ ∧
    parseText (render f) ≠ .ok f := by
  have hempty : Formula.empty 3 = .ok ⟨3, #[], #[]⟩ := rfl
  have hfirst : Formula.add ⟨3, #[], #[]⟩ [] = .ok (0, ⟨3, #[⟨[], false⟩], #[]⟩) := by decide
  have hsecond : Formula.add ⟨3, #[⟨[], false⟩], #[⟨[⟨2147483647, true⟩], true⟩]⟩
      [⟨1, false⟩, ⟨1, true⟩, ⟨1, false⟩] = .ok (1, ⟨3,
        #[⟨[], false⟩, ⟨[⟨1, false⟩, ⟨1, true⟩], false⟩], #[⟨[⟨2147483647, true⟩], true⟩]⟩) := by
    decide
  have hstored := ((Formula.Stored.built (.added (.empty hempty) hfirst)).learned
    ⟨[⟨2147483647, true⟩], false⟩).added hsecond
  rcases parseText_render hstored (by decide) with ⟨hparse, hsame⟩
  refine ⟨_, hstored, by decide, rfl, by decide +kernel, hparse, ?_⟩
  rw [ne_eq, hsame]
  simp

end Dimacs
end SatSearch
