import SatSearch.Proofs.Dimacs.Grammar

/-!
# Reading — a document is read as the grammar has it

Reading goes from line to line, with a clause that may still be open, a problem line that may be
overtaken, and a check of each line when it is reached. It stops at the first line that breaks a
rule, or at the one that ends the document. What it has then is what the grammar says of all the
lines at once.
-/

namespace SatSearch
namespace Dimacs

open Grammar

/-! ## One line -/

theorem Header.ofWords?_eq (ws : List (List Char)) : Header.ofWords? ws = header? ws := by
  rw [Header.ofWords?.eq_def]
  split
  · rename_i vars clauses
    simp only [header?, unsigned?_eq]
    cases size? vars <;> cases size? clauses <;> rfl
  · rename_i hother
    rw [header?.eq_def]
    split
    · rename_i p cnf vars clauses
      rw [if_neg]
      rintro ⟨rfl, rfl⟩
      exact hother vars clauses rfl
    · rfl

theorem numbersOfWords_eq (line : Nat) (ws : List (List Char)) : numbersOfWords line ws =
    match ws.find? fun w => (integer? w).isNone with
    | some w => .error (.token line (String.ofList w))
    | none => .ok (ws.filterMap integer?) := by
  induction ws with
  | nil => rfl
  | cons w ws ih =>
      rw [numbersOfWords, signed?_eq, List.find?_cons, List.filterMap_cons]
      cases hw : integer? w with
      | none => rfl
      | some n =>
          simp only [Option.isNone_some, ih]
          cases ws.find? fun w => (integer? w).isNone <;> rfl

theorem beginsWith_iff {c : Char} {ws : List (List Char)} :
    beginsWith c ws = true ↔ ∃ w rest, ws = (c :: w) :: rest := by
  rcases ws with _ | ⟨_ | ⟨c', w⟩, ws⟩ <;> simp [beginsWith]

theorem isProblem_iff {ws : List (List Char)} :
    isProblem ws = true ↔ ∃ rest, ws = ['p'] :: rest := by
  cases ws <;> simp [isProblem]

theorem header?_eq_none {ws : List (List Char)} (h : isProblem ws = false) : header? ws = none := by
  rw [header?.eq_def]
  split
  · rw [if_neg]
    rintro ⟨rfl, rfl⟩
    cases h
  · rfl

/-- A problem line is not blank, and no comment either. -/
theorem not_isProblem_of_isSkipped {ws : List (List Char)} (h : isSkipped ws = true) :
    isProblem ws = false := by
  rw [Bool.eq_false_iff, ne_eq, isProblem_iff]
  rintro ⟨rest, rfl⟩
  cases h

theorem Line.read_eq (number : Nat) (content : String) : Line.read number content =
    if beginsWith '%' (words content) then .ok .closing
    else if isSkipped (words content) then .ok .skipped
    else if isProblem (words content) then
      match header? (words content) with
      | some header => .ok (.problem header)
      | none => .error (.header number content)
    else (numbersOfWords number (words content)).map .numbers := by
  rw [Line.read, words_eq]
  generalize words content = ws
  split
  · rfl
  · rfl
  · rfl
  · simp only [Header.ofWords?_eq]
    rfl
  · rename_i hempty hclosing hcomment hproblem
    -- No other pattern applies, so the first word is of no special kind.
    have hends : beginsWith '%' ws = false := by
      rw [Bool.eq_false_iff, ne_eq, beginsWith_iff]
      rintro ⟨w, rest, hws⟩
      exact hclosing w rest hws
    have hskipped : isSkipped ws = false := by
      rw [Bool.eq_false_iff, ne_eq, isSkipped, Bool.or_eq_true, List.isEmpty_iff, beginsWith_iff]
      rintro (hws | ⟨w, rest, hws⟩)
      · exact hempty hws
      · exact hcomment w rest hws
    have hwords : isProblem ws = false := by
      rw [Bool.eq_false_iff, ne_eq, isProblem_iff]
      rintro ⟨rest, hws⟩
      exact hproblem rest hws
    simp only [hends, hskipped, hwords, Bool.false_eq_true, if_false]

/-! ## Line after line -/

/-- What has been read with one more line that belongs to the document. -/
def Draft.take (d : Draft) (line : List UInt8) : Draft :=
  (numbers line).foldl Draft.feed { d with header := (header? (wordsOf line)).or d.header }

theorem readLines_cons (number : Nat) (d : Draft) (line : List UInt8) (rest : List (List UInt8)) :
    readLines number d (line :: rest) =
      if isClosing line then .ok d.finish
      else
        match fault? number line with
        | some failure => .error failure
        | none => readLines (number + 1) (d.take line) rest := by
  rw [readLines, fault?, isClosing, Draft.take, numbers, wordsOf, content?]
  cases String.fromUTF8? ⟨line.toArray⟩ with
  | none => rfl
  | some content =>
      simp only [Option.map_some, Option.getD_some, Line.read_eq]
      generalize words content = ws
      -- The cases are those of the first word, in the order in which it is looked at.
      cases hends : beginsWith '%' ws with
      | true => rfl
      | false =>
          cases hskipped : isSkipped ws with
          | true =>
              rw [header?_eq_none (not_isProblem_of_isSkipped hskipped)]
              rfl
          | false =>
              cases hproblem : isProblem ws with
              | true => cases header? ws <;> rfl
              | false =>
                  rw [header?_eq_none hproblem, numbersOfWords_eq]
                  cases ws.find? fun w => (integer? w).isNone <;> rfl

/-! ## All lines -/

/-- The lines before the end of the document are taken in, unless one of them breaks a rule. -/
theorem readLines_eq (ls : List (List UInt8)) : ∀ (number : Nat) (d : Draft),
    readLines number d ls =
      match ((ls.takeWhile (!isClosing ·)).zipIdx number).findSome?
        fun (line, number) => fault? number line with
      | some failure => .error failure
      | none => .ok ((ls.takeWhile (!isClosing ·)).foldl Draft.take d).finish := by
  induction ls with
  | nil =>
      intro number d
      rfl
  | cons line ls ih =>
      intro number d
      rw [readLines_cons]
      cases hends : isClosing line with
      | true => simp [hends]
      | false =>
          cases hfault : fault? number line with
          | some failure => simp [hends, hfault]
          | none => simp [hends, hfault, ih]

/-- Numbers do not depend on the sizes that were declared. -/
theorem foldl_feed_header (ns : List Int) : ∀ (d : Draft) (header : Option Header),
    ns.foldl Draft.feed { d with header } = { ns.foldl Draft.feed d with header } := by
  induction ns with
  | nil => exact fun _ _ => rfl
  | cons n ns ih =>
      intro d header
      have hfeed : Draft.feed { d with header } n = { d.feed n with header } := by
        simp only [Draft.feed]
        cases Literal.ofSigned? n <;> rfl
      rw [List.foldl_cons, List.foldl_cons, hfeed, ih]

/-- What lines add up to is what all their numbers add up to, and the last declaration. -/
theorem foldl_take (ls : List (List UInt8)) : ∀ d : Draft, ls.foldl Draft.take d =
    { (ls.flatMap numbers).foldl Draft.feed d with
      header := (ls.filterMap fun line => header? (wordsOf line)).getLast?.or d.header } := by
  induction ls with
  | nil => exact fun _ => rfl
  | cons line ls ih =>
      intro d
      simp only [List.foldl_cons, ih, Draft.take, foldl_feed_header, List.flatMap_cons,
        List.foldl_append]
      cases hheader : header? (wordsOf line) with
      | none => simp [hheader]
      | some header => simp [hheader, List.getLast?_cons]

/-- Feeding numbers closes the clauses that zeros close and leaves the rest open. -/
theorem finish_foldl (ns : List Int) : ∀ (run : List Int) (d : Draft),
    (∀ n ∈ run, (n == 0) = false) → d.current = (run.map literal).reverse →
    (ns.foldl Draft.feed d).finish = ⟨d.header, d.closed.reverse ++ clausesOf (run ++ ns)⟩ := by
  -- `run` are the numbers that the literals of the open clause were read from.
  induction ns with
  | nil =>
      intro run d hrun hcurrent
      have hrun' : ∀ n ∈ run ++ [], (n == 0) = false := by simpa using hrun
      rw [clausesOf, closed_of_forall hrun', leftOpen_of_forall hrun', List.foldl_nil, Draft.finish,
        hcurrent]
      cases run <;> simp
  | cons n ns ih =>
      intro run d hrun hcurrent
      rw [List.foldl_cons]
      by_cases hn : n = 0
      · have hfeed : d.feed n = ⟨d.header, run.map literal :: d.closed, []⟩ := by
          simp [Draft.feed, Literal.ofSigned?, hn, hcurrent]
        rw [hfeed, ih [] _ (by simp) rfl, clausesOf, clausesOf,
          closed_append_cons hrun (by simpa using hn),
          leftOpen_append_cons hrun (by simpa using hn)]
        simp
      · have hfeed : d.feed n = ⟨d.header, d.closed, ((run ++ [n]).map literal).reverse⟩ := by
          simp [Draft.feed, Literal.ofSigned?, hn, hcurrent, literal]
        have hrun' : ∀ m ∈ run ++ [n], (m == 0) = false := by
          intro m hm
          rcases List.mem_append.1 hm with hm | hm
          · exact hrun m hm
          · rw [List.mem_singleton.1 hm]
            simpa using hn
        rw [hfeed, ih (run ++ [n]) _ hrun' rfl]
        simp

theorem Document.read_eq (bytes : ByteArray) : Document.read bytes =
    match firstFault? (body bytes.data.toList) with
    | some failure => .error failure
    | none => .ok ⟨((body bytes.data.toList).filterMap fun line => header? (wordsOf line)).getLast?,
        clausesOf ((body bytes.data.toList).flatMap numbers)⟩ := by
  rw [Document.read, lines_eq, readLines_eq, foldl_take, ← foldl_feed_header,
    finish_foldl _ [] _ (by simp) rfl]
  simp only [firstFault?, body, Draft.empty, Option.or_none, List.reverse_nil, List.nil_append]

/-! ## From document to formula -/

/-- Every number other than zero mentions a variable, and zeros do not count. -/
theorem foldl_max_literal (ns : List Int) : ∀ m : Nat,
    ((ns.filter (!· == 0)).map literal).foldl (fun m l => max m (l.var + 1)) m =
      (ns.map Int.natAbs).foldl max m := by
  induction ns with
  | nil => exact fun _ => rfl
  | cons n ns ih =>
      intro m
      by_cases hn : n = 0
      · simp [hn, ih]
      · have hvar : (literal n).var + 1 = n.natAbs := by
          simp only [literal]
          omega
        simp [hn, hvar, ih]

theorem span_clausesOf (ns : List Int) : Formula.span (clausesOf ns) = largest ns := by
  have hlargest : largest ns = (ns.map Int.natAbs).foldl max 0 := by
    rw [largest]
    cases ns with
    | nil => rfl
    | cons n ns =>
        rw [List.map_cons, List.max?_cons', Option.getD_some, List.foldl_cons, Nat.zero_max]
  calc
    Formula.span (clausesOf ns)
    _ = (clausesOf ns).flatten.foldl (fun m l => max m (l.var + 1)) 0 := by
        rw [Formula.span, List.foldl_flatten]
    _ = ((ns.filter (!· == 0)).map literal).foldl (fun m l => max m (l.var + 1)) 0 := by
        rw [clausesOf, ← List.map_flatten, flatten_cut]
    _ = (ns.map Int.natAbs).foldl max 0 := foldl_max_literal ns 0
    _ = largest ns := hlargest.symm

theorem addAll_eq (f : Formula) (lss : List (List Literal)) :
    f.addAll lss = lss.foldlM (fun f ls => (f.add ls).map Prod.snd) f := by
  induction lss generalizing f with
  | nil => rfl
  | cons ls lss ih =>
      rw [Formula.addAll, List.foldlM_cons]
      cases f.add ls with
      | error e => rfl
      | ok result => exact ih result.2

theorem Document.formula_eq (d : Document) : d.formula = assemble d.numVars d.clauses := by
  rw [Document.formula, assemble]
  cases Formula.empty d.numVars with
  | error e => rfl
  | ok f => exact addAll_eq f d.clauses

/-- Whatever the bytes are, reading them line by line gives what they mean as a whole: the first
fault of a line, or the formula that all numbers make, however they are laid out. -/
theorem parse_eq_meaning (bytes : ByteArray) : parse bytes = meaning bytes := by
  rw [parse, meaning, Document.read_eq]
  cases firstFault? (body bytes.data.toList) with
  | some failure => rfl
  | none =>
      simp only [bind, Except.bind, Document.formula_eq, Document.numVars, span_clausesOf,
        variableCount]
      generalize assemble _ _ = result
      cases result <;> rfl

/-- A clause that runs over a line, one that lacks its zero, and sizes declared after both. -/
example : parse "1 -2\n 3 0 +2\np cnf 3 1\n%".toUTF8 =
    .ok ⟨3, #[.given [⟨0, true⟩, ⟨1, false⟩, ⟨2, true⟩], .given [⟨1, true⟩]], #[]⟩ := by
  decide +kernel

end Dimacs
end SatSearch
