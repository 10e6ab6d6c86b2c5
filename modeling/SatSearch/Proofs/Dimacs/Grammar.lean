import Mathlib.Data.Nat.Digits.Defs
import Mathlib.Tactic.Ring
import SatSearch.Dimacs.Document

/-!
# Grammar — what a document says when it is looked at as a whole

Lines are what line feeds close, words what lies between blanks, and clauses what zeros close. With
that, a document can be understood without going through it: which lines belong to it, which one is
the first to break a rule, which sizes were declared last, and which numbers all its other lines
make when they are put one after the other. Where the lines were broken does not matter then.
-/

namespace SatSearch
namespace Dimacs
namespace Grammar

/-! ## Cutting at separators -/

section Cutting

variable {α : Type} {isSep : α → Bool} {xs front back : List α} {x : α}

/-- The runs that separators close. -/
def closed (isSep : α → Bool) (xs : List α) : List (List α) :=
  (xs.splitOnP isSep).dropLast

/-- The run after the last separator, if there is something in it. -/
def leftOpen (isSep : α → Bool) (xs : List α) : List (List α) :=
  (xs.splitOnP isSep).getLast?.toList.filter (· ≠ [])

theorem closed_of_forall (h : ∀ x ∈ xs, isSep x = false) : closed isSep xs = [] := by
  rw [closed, List.splitOnP_eq_singleton h]
  rfl

theorem leftOpen_of_forall (h : ∀ x ∈ xs, isSep x = false) :
    leftOpen isSep xs = if xs.isEmpty then [] else [xs] := by
  rw [leftOpen, List.splitOnP_eq_singleton h]
  cases xs <;> rfl

theorem closed_append_cons (h : ∀ x ∈ front, isSep x = false) (hx : isSep x = true) :
    closed isSep (front ++ x :: back) = front :: closed isSep back := by
  rw [closed, List.splitOnP_append_cons_of_forall_mem h x hx,
    List.dropLast_cons_of_ne_nil (List.splitOnP_ne_nil isSep back), closed]

theorem leftOpen_append_cons (h : ∀ x ∈ front, isSep x = false) (hx : isSep x = true) :
    leftOpen isSep (front ++ x :: back) = leftOpen isSep back := by
  rw [leftOpen, List.splitOnP_append_cons_of_forall_mem h x hx, List.getLast?_cons, leftOpen]
  cases hlast : (back.splitOnP isSep).getLast? with
  | none => exact absurd (List.getLast?_eq_none_iff.1 hlast) (List.splitOnP_ne_nil isSep back)
  | some last => rfl

theorem flatten_splitOnP (isSep : α → Bool) (xs : List α) :
    (xs.splitOnP isSep).flatten = xs.filter (!isSep ·) := by
  induction xs with
  | nil => rfl
  | cons x xs ih =>
      rw [List.splitOnP_cons_eq_if_modifyHead]
      cases hx : isSep x with
      | true => simp [hx, ih]
      | false =>
          rcases List.exists_cons_of_ne_nil (List.splitOnP_ne_nil isSep xs) with ⟨run, runs, hruns⟩
          rw [hruns] at ih
          simp only [Bool.false_eq_true, if_false, hruns, List.modifyHead_cons, List.flatten_cons,
            List.cons_append, List.filter_cons, hx, Bool.not_false, if_true, ← ih]

/-- Cutting drops the separators and nothing else. -/
theorem flatten_cut (isSep : α → Bool) (xs : List α) :
    (closed isSep xs ++ leftOpen isSep xs).flatten = xs.filter (!isSep ·) := by
  rw [← flatten_splitOnP, closed, leftOpen]
  cases hlast : (xs.splitOnP isSep).getLast? with
  | none => exact absurd (List.getLast?_eq_none_iff.1 hlast) (List.splitOnP_ne_nil isSep xs)
  | some last =>
      rcases List.getLast?_eq_some_iff.1 hlast with ⟨runs, hruns⟩
      rw [hruns, List.dropLast_concat]
      cases last <;> simp

end Cutting

/-! ## Lines -/

/-- A line without the carriage return at its end. -/
def dropReturn (line : List UInt8) : List UInt8 :=
  if line.getLast? = some 13 then line.dropLast else line

/-- What line feeds close, without carriage returns, and what follows the last one. -/
def lines (bytes : List UInt8) : List (List UInt8) :=
  (closed (· == 10) bytes).map dropReturn ++ leftOpen (· == 10) bytes

theorem closeLine_eq (line : List UInt8) : Text.closeLine line = dropReturn line.reverse := by
  cases line with
  | nil => rfl
  | cons b line =>
      rw [Text.closeLine.eq_def]
      by_cases hb : b = 13
      · subst hb
        simp [dropReturn]
      · simp [dropReturn, hb]

theorem linesFrom_eq (bytes : List UInt8) : ∀ (line : List UInt8) (done : List (List UInt8)),
    (∀ b ∈ line, (b == 10) = false) → Text.linesFrom line done bytes =
      done.reverse ++ ((closed (· == 10) (line.reverse ++ bytes)).map dropReturn ++
        leftOpen (· == 10) (line.reverse ++ bytes)) := by
  -- On the bytes that are left; those of the unfinished line are put back in front of them.
  induction bytes with
  | nil =>
      intro line done hline
      have hline' : ∀ b ∈ line.reverse ++ [], (b == 10) = false := by simpa using hline
      rw [closed_of_forall hline', leftOpen_of_forall hline', Text.linesFrom]
      cases line <;> simp
  | cons b bytes ih =>
      intro line done hline
      have hline' : ∀ b ∈ line.reverse, (b == 10) = false := by simpa using hline
      rw [Text.linesFrom]
      by_cases hb : b = 10
      · rw [if_pos hb, ih _ _ (by simp), closed_append_cons hline' (by simpa using hb),
          leftOpen_append_cons hline' (by simpa using hb), closeLine_eq]
        simp
      · rw [if_neg hb, ih _ _ (by simpa [hb] using hline)]
        simp

theorem lines_eq (bytes : ByteArray) : Text.lines bytes = lines bytes.data.toList := by
  rw [Text.lines, linesFrom_eq _ _ _ (by simp)]
  rfl

/-! ## Words -/

/-- The runs between blanks that have something in them. -/
def words (content : String) : List (List Char) :=
  (content.toList.splitOnP Text.isBlank).filter (· ≠ [])

theorem wordsFrom_eq (cs : List Char) : ∀ (word : List Char) (done : List (List Char)),
    (∀ c ∈ word, Text.isBlank c = false) → Text.wordsFrom word done cs =
      done.reverse ++ ((word.reverse ++ cs).splitOnP Text.isBlank).filter (· ≠ []) := by
  induction cs with
  | nil =>
      intro word done hword
      rw [List.splitOnP_eq_singleton (by simpa using hword), Text.wordsFrom]
      cases word <;> simp
  | cons c cs ih =>
      intro word done hword
      rw [Text.wordsFrom]
      cases hc : Text.isBlank c with
      | true =>
          rw [List.splitOnP_append_cons_of_forall_mem (by simpa using hword) c hc, if_pos rfl,
            ih _ _ (by simp)]
          cases word <;> simp
      | false =>
          rw [if_neg Bool.false_ne_true, ih _ _ (by simpa [hc] using hword)]
          simp

theorem words_eq (content : String) : Text.words content = words content := by
  rw [Text.words, wordsFrom_eq _ _ _ (by simp)]
  rfl

/-! ## Numerals -/

def isDigit (c : Char) : Bool :=
  '0' ≤ c && c ≤ '9'

/-- What digits stand for, the last of them counting ones. -/
def value (cs : List Char) : Nat :=
  Nat.ofDigits 10 (cs.reverse.map fun c => c.toNat - 48)

/-- The value of one or more decimal digits. -/
def natural? (cs : List Char) : Option Nat :=
  if !cs.isEmpty && cs.all isDigit then some (value cs) else none

/-- The sign in front of a numeral, plus if there is none, and what follows it. -/
def splitSign : List Char → Int × List Char
  | '+' :: cs => (1, cs)
  | '-' :: cs => (-1, cs)
  | cs => (1, cs)

/-- A number of 32 bits, one of them for the sign. -/
def integer? (cs : List Char) : Option Int :=
  ((natural? (splitSign cs).2).map fun n : Nat => (splitSign cs).1 * n).filter fun n =>
    -2 ^ 31 ≤ n ∧ n < 2 ^ 31

/-- A number of 64 bits, written without a minus sign. -/
def size? (cs : List Char) : Option Nat :=
  if cs.head? = some '-' then none else (natural? (splitSign cs).2).filter (· < 2 ^ 64)

theorem value_cons (c : Char) (cs : List Char) :
    value (c :: cs) = 10 ^ cs.length * (c.toNat - 48) + value cs := by
  simp [value, Nat.ofDigits_append]
  ring

theorem digitsFrom_eq (cs : List Char) : ∀ n : Nat, Text.digitsFrom n cs =
    if cs.all isDigit then some (10 ^ cs.length * n + value cs) else none := by
  induction cs with
  | nil =>
      intro n
      simp [Text.digitsFrom, value]
  | cons c cs ih =>
      intro n
      rw [Text.digitsFrom]
      by_cases hc : '0' ≤ c ∧ c ≤ '9'
      · have hdigit : isDigit c = true := by simpa [isDigit] using hc
        have hvalue : 10 ^ cs.length * (10 * n + (c.toNat - 48)) + value cs =
            10 ^ (cs.length + 1) * n + value (c :: cs) := by
          rw [value_cons]
          ring
        rw [if_pos hc, ih, List.all_cons, hdigit, Bool.true_and, hvalue, List.length_cons]
      · have hdigit : isDigit c = false := by
          rw [Bool.eq_false_iff]
          simpa [isDigit] using hc
        rw [if_neg hc, List.all_cons, hdigit, Bool.false_and]
        rfl

theorem digits?_eq (cs : List Char) : Text.digits? cs = natural? cs := by
  cases cs with
  | nil => rfl
  | cons c cs => simp [Text.digits?, digitsFrom_eq, natural?]

theorem signed?_eq (cs : List Char) : Text.signed? cs = integer? cs := by
  have hrange : ∀ n : Int, (decide (-2147483648 ≤ n) && decide (n ≤ 2147483647)) =
      decide (-2 ^ 31 ≤ n ∧ n < 2 ^ 31) := by
    intro n
    rw [← Bool.decide_and]
    exact decide_eq_decide.2 ⟨fun h => ⟨by omega, by omega⟩, fun h => ⟨by omega, by omega⟩⟩
  simp only [Text.signed?, integer?, digits?_eq, hrange]
  congr 1
  split
  · simp only [splitSign, one_mul]
    rfl
  · rename_i rest
    simp only [splitSign, neg_one_mul]
    cases natural? rest <;> rfl
  · rename_i hplus hminus
    simp only [splitSign.eq_3 cs hplus hminus, one_mul]
    rfl

theorem natural?_minus (cs : List Char) : natural? ('-' :: cs) = none := by
  simp [natural?, isDigit]

theorem unsigned?_eq (cs : List Char) : Text.unsigned? cs = size? cs := by
  simp only [Text.unsigned?, size?, digits?_eq]
  split
  · rfl
  · rename_i hplus
    by_cases hminus : ∃ rest, cs = '-' :: rest
    · -- A minus sign is read as a digit, which it is not.
      rcases hminus with ⟨rest, rfl⟩
      simp [natural?_minus]
    · have hhead : cs.head? ≠ some '-' := by
        intro hhead
        rcases List.head?_eq_some_iff.1 hhead with ⟨rest, hcs⟩
        exact hminus ⟨rest, hcs⟩
      rw [if_neg hhead, splitSign.eq_3 cs hplus fun rest hcs => hminus ⟨rest, hcs⟩]
      rfl

/-! ## What a line says -/

/-- The content of a line, if its bytes are UTF-8. -/
def content? (line : List UInt8) : Option String :=
  String.fromUTF8? ⟨line.toArray⟩

def wordsOf (line : List UInt8) : List (List Char) :=
  ((content? line).map words).getD []

/-- The first word begins with the character. -/
def beginsWith (c : Char) (ws : List (List Char)) : Bool :=
  ws.head?.bind List.head? == some c

/-- Blank, or a comment. -/
def isSkipped (ws : List (List Char)) : Bool :=
  ws.isEmpty || beginsWith 'c' ws

def isProblem (ws : List (List Char)) : Bool :=
  ws.head? == some ['p']

/-- The sizes that four words declare. -/
def header? : List (List Char) → Option Header
  | [p, cnf, vars, clauses] =>
    if p = ['p'] ∧ cnf = ['c', 'n', 'f'] then
      (size? vars).bind fun numVars => (size? clauses).map fun numClauses => ⟨numVars, numClauses⟩
    else none
  | _ => none

/-- The document ends here, and the line says nothing else. -/
def isClosing (line : List UInt8) : Bool :=
  beginsWith '%' (wordsOf line)

/-- The rule that the line breaks, if there is one: it is UTF-8, a problem line declares sizes, and
every word of any other line is a number. -/
def fault? (number : Nat) (line : List UInt8) : Option Failure :=
  match content? line with
  | none => some (.unreadable .notUtf8)
  | some content =>
    if isSkipped (words content) then none
    else if isProblem (words content) then
      if (header? (words content)).isNone then some (.header number content) else none
    else
      ((words content).find? fun w => (integer? w).isNone).map fun w =>
        .token number (String.ofList w)

/-- The numbers on a line that is neither skipped nor a problem line. -/
def numbers (line : List UInt8) : List Int :=
  if isSkipped (wordsOf line) || isProblem (wordsOf line) then []
  else (wordsOf line).filterMap integer?

/-! ## What a document says -/

/-- The lines before the first one that ends the document. One that is not UTF-8 does not end it,
whatever it begins with. -/
def body (bytes : List UInt8) : List (List UInt8) :=
  (lines bytes).takeWhile (!isClosing ·)

/-- The first rule that is broken; lines are counted from one. -/
def firstFault? (body : List (List UInt8)) : Option Failure :=
  (body.zipIdx 1).findSome? fun (line, number) => fault? number line

/-- The literal that a number other than zero stands for. -/
def literal (n : Int) : Literal :=
  ⟨n.natAbs - 1, 0 < n⟩

/-- The clauses that zeros close, and a last one without its zero if it has a literal. -/
def clausesOf (ns : List Int) : List (List Literal) :=
  (closed (· == 0) ns ++ leftOpen (· == 0) ns).map (List.map literal)

/-- The largest variable mentioned, counted from one. -/
def largest (ns : List Int) : Nat :=
  (ns.map Int.natAbs).max?.getD 0

/-- How many variables there are: as the last problem line says, or as many as are mentioned. -/
def variableCount (body : List (List UInt8)) : Nat :=
  match (body.filterMap fun line => header? (wordsOf line)).getLast? with
  | some header => header.numVars
  | none => largest (body.flatMap numbers)

/-- The formula over so many variables that takes in the clauses in order. -/
def assemble (numVars : Nat) (clauses : List (List Literal)) : Except FormulaError Formula :=
  (Formula.empty numVars).bind (clauses.foldlM fun f ls => (f.add ls).map Prod.snd)

/-- What a document means: its first fault, or the formula of all its numbers. -/
def meaning (bytes : ByteArray) : Except Failure Formula :=
  let body := body bytes.data.toList
  match firstFault? body with
  | some failure => .error failure
  | none => (assemble (variableCount body) (clausesOf (body.flatMap numbers))).mapError .formula

end Grammar
end Dimacs
end SatSearch
