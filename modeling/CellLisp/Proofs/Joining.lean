import CellLisp.Evaluation
import CellLisp.Proofs.Grammar
import CellLisp.Proofs.Lexing
import CellLisp.Proofs.Outcome

namespace CellLisp

namespace Position

variable {p : Position} {c : Char} {cs : List Char} {n : Nat}

-- The same place in a text that begins some lines lower.
def below (n : Nat) (p : Position) : Position :=
  { p with line := p.line + n }

theorem next_below : (p.below n).next c = (p.next c).below n := by
  unfold next below
  split
  case isTrue  => simp [Nat.add_right_comm]
  case isFalse => rfl

theorem line_after : (p.after cs).line = p.line + cs.count '\n' := by
  induction cs generalizing p
  case nil => simp
  case cons c cs hi =>
    rw [after_cons, hi, next]
    split
    case isTrue hc  => simp [hc, Nat.add_comm, Nat.add_left_comm]
    case isFalse hc => simp [List.count_cons_of_ne hc]

-- A new line begins in the first column, whatever was in the lines before.
theorem next_after_start : (start.after cs).next '\n' = start.below (cs.count '\n' + 1) := by
  simp [next, line_after, start, below, Nat.add_assoc]

end Position

def Located.below (n : Nat) (t : Located) : Located :=
  { t with position := t.position.below n }

def ReadError.below (n : Nat) : ReadError → ReadError
  | unexpectedClose place     => unexpectedClose (place.below n)
  | unterminatedList opened   => unterminatedList (opened.below n)
  | unterminatedString opened => unterminatedString (opened.below n)
  | invalidInteger text place => invalidInteger text (place.below n)
  | danglingQuote place       => danglingQuote (place.below n)
  | empty                     => empty

-- Only a fault of the text itself names a place in it.
def Failure.below (n : Nat) : Failure → Failure
  | read e      => read (e.below n)
  | compile e   => compile e
  | stopped why => stopped why

def Tokens.below (n : Nat) (ts : Tokens) : Tokens :=
  ⟨ts.items.map (·.below n), ts.fault.map (·.below n)⟩

def Reading.below (n : Nat) (r : Reading) : Reading :=
  { r with fault := r.fault.map (·.below n) }

namespace Lexer

variable {mode : Mode} {p begun : Position} {c : Char} {cs ds spelling : List Char} {n : Nat}

def Mode.below (n : Nat) : Mode → Mode
  | gap                           => gap
  | comment                       => comment
  | string opened escaped content => string (opened.below n) escaped content
  | atom begun spelling           => atom (begun.below n) spelling

theorem atom_below : atom (begun.below n) spelling =
    ((atom begun spelling).map (·.below n)).mapError (·.below n) := by
  unfold atom
  split
  case isTrue =>
    split
    case h_1 => rfl
    case h_2 => rfl
  case isFalse =>
    split
    case isTrue  => rfl
    case isFalse => rfl

theorem lead_below :
    lead (p.below n) c = ((lead p c).1.below n, (lead p c).2.map (·.below n)) := by
  unfold lead
  split
  case isTrue  => rfl
  case isFalse => split <;> rfl

theorem step_below : step (mode.below n) (p.below n) c =
    ((step mode p c).map fun (mode, ts) => (mode.below n, ts.map (·.below n))).mapError
      (·.below n) := by
  cases mode
  case gap     => simp [step, Mode.below, lead_below, Except.map, Except.mapError]
  case comment =>
    simp only [step, Mode.below]
    split <;> rfl
  case string opened escaped content =>
    cases escaped
    case true  => rfl
    case false =>
      simp only [step, Mode.below]
      split <;> rfl
  case atom begun spelling =>
    simp only [step, Mode.below, atom_below, lead_below]
    split
    case isTrue  => cases atom begun spelling.reverse <;> rfl
    case isFalse => rfl

theorem finish_below : finish (mode.below n) = (finish mode).below n := by
  cases mode
  case atom begun spelling =>
    simp only [finish, Mode.below, atom_below]
    cases atom begun spelling.reverse <;> rfl
  all_goals rfl

-- How a text is cut into tokens does not depend on where it begins.
theorem scan_below (mode : Mode) : scan (mode.below n) (p.below n) cs = (scan mode p cs).below n := by
  induction cs generalizing mode p
  case nil => exact finish_below
  case cons c cs hi =>
    rw [scan, scan, step_below]
    cases step mode p c
    case error => rfl
    case ok result =>
      simp [Except.map, Except.mapError, Position.next_below, hi, Tokens.below]

-- The end of a line completes what the end of the text would.
theorem scan_newline (h : (finish mode).fault = none) :
    scan mode p ('\n' :: ds) = (scan .gap (p.next '\n') ds).after (finish mode).items := by
  cases mode
  case gap     => exact scan_cons_of_ok rfl
  case comment => exact scan_cons_of_ok rfl
  case string  => cases h
  case atom begun spelling =>
    simp only [finish] at h ⊢
    cases ha : atom begun spelling.reverse <;> simp only [ha, reduceCtorEq] at h ⊢
    case ok token =>
      have hended : Ended ('\n' :: ds) := by simp [Ended]; decide
      have hgap : step .gap p '\n' = .ok (.gap, []) := rfl
      rw [scan_atom_of_ended hended ha, scan_cons_of_ok hgap]
      rfl

theorem scan_lines (h : (scan mode p cs).fault = none) :
    scan mode p (cs ++ '\n' :: ds) =
      (scan .gap ((p.after cs).next '\n') ds).after (scan mode p cs).items := by
  induction cs generalizing mode p
  case nil => exact scan_newline h
  case cons c cs hi =>
    cases hs : step mode p c
    case error e => simp [scan, hs] at h
    case ok result =>
      rw [scan_cons_of_ok hs] at h ⊢
      rw [List.cons_append, scan_cons_of_ok hs, hi h, Tokens.after_after]
      rfl

end Lexer

namespace Reader

variable {stack : List Frame} {t : Located} {ts us : List Located} {fault : Option ReadError} {n : Nat}

def Frame.below (n : Nat) : Frame → Frame
  | list opened items => list (opened.below n) items
  | quote place       => quote (place.below n)

theorem deliver_below {d : Datum} :
    deliver d (stack.map (·.below n)) = ((deliver d stack).1, (deliver d stack).2.map (·.below n)) := by
  induction stack generalizing d
  case nil => rfl
  case cons frame stack hi =>
    cases frame
    case list  => rfl
    case quote => exact hi

theorem step_below : step (stack.map (·.below n)) (t.below n) =
    ((step stack t).map fun (forms, stack) => (forms, stack.map (·.below n))).mapError
      (·.below n) := by
  obtain ⟨token, place⟩ := t
  cases token
  case openParen => rfl
  case quote     => rfl
  case closeParen =>
    cases stack
    case nil => rfl
    case cons frame stack =>
      cases frame
      case list  => exact congrArg Except.ok deliver_below
      case quote => rfl
  all_goals simp [step, deliver_below, Located.below, Except.map, Except.mapError]

theorem unfinished_below : unfinished (stack.map (·.below n)) = (unfinished stack).map (·.below n) := by
  cases stack
  case nil             => rfl
  case cons frame stack => cases frame <;> rfl

theorem parse_below (stack : List Frame) :
    parse (fault.map (·.below n)) (stack.map (·.below n)) (ts.map (·.below n)) =
      (parse fault stack ts).below n := by
  induction ts generalizing stack
  case nil =>
    cases fault
    case none   => simp [parse, unfinished_below, Reading.below]
    case some e => rfl
  case cons t ts hi =>
    rw [List.map_cons, parse, parse, step_below]
    cases step stack t
    case error => rfl
    case ok    => simp [Except.map, Except.mapError, hi, Reading.below]

-- Between two expressions nothing is open.
theorem parse_append {ds : List Datum} (h : Grammar.Exprs ts ds) :
    parse fault [] (ts ++ us) = (parse fault [] us).after ds := by
  induction ds generalizing ts
  case nil =>
    cases h
    rfl
  case cons hi =>
    cases h
    case cons hd hs => simp [parse_expr.1 _ _ hd, deliver, hi hs, Reading.after]

end Reader

theorem exprs_of_readText {text : String} (h : (readText text).fault = none) :
    (tokens text.toList).fault = none ∧
      Grammar.Exprs (tokens text.toList).items (readText text).forms := by
  have hall : (readText text).all = .ok (readText text).forms := by simp [Reading.all, h]
  exact Reader.all_parse_eq_ok_iff.mp hall

theorem readText_lines {first : String} (h : (readText first).fault = none) (second : String) :
    readText (first ++ "\n" ++ second) =
      ((readText second).below (first.toList.count '\n' + 1)).after (readText first).forms := by
  obtain ⟨hlexed, hexprs⟩ := exprs_of_readText h
  have htext : (first ++ "\n" ++ second).toList = first.toList ++ '\n' :: second.toList := by simp
  have htokens : tokens (first ++ "\n" ++ second).toList =
      ((tokens second.toList).below (first.toList.count '\n' + 1)).after
        (tokens first.toList).items := by
    rw [htext, tokens, Lexer.scan_lines hlexed, Position.next_after_start]
    exact congrArg (Tokens.after _) (Lexer.scan_below .gap)
  rw [readText, htokens]
  simp only [Tokens.after, Tokens.below]
  rw [Reader.parse_append hexprs]
  exact congrArg (Reading.after _) (Reader.parse_below [])

namespace SessionM

variable {fuel : Nat} {s : Session}

theorem evalForms_append (ds es : List Datum) (last : Value) :
    evalForms fuel (ds ++ es) last = evalForms fuel ds last >>= evalForms fuel es := by
  induction ds generalizing last
  case nil          => rfl
  case cons d ds hi => simp [evalForms, hi]

-- The value that came before counts only where there is nothing to evaluate.
theorem evalForms_eq (es : List Datum) (last : Value) :
    evalForms fuel es last s =
      match evalForms fuel es none s with
      | .ok v t    => .ok (if es = [] then last else v) t
      | .error e t => .error e t := by
  cases es
  case nil => rfl
  case cons e es =>
    simp only [evalForms, reduceCtorEq, if_false]
    split <;> assumption

theorem evalText_eq (text : String) :
    evalText fuel text s =
      match evalForms fuel (readText text).forms none s with
      | .error e t => .error e t
      | .ok v t    =>
        match (readText text).fault with
        | none   => .ok v t
        | some e => .error (.read e) t := by
  simp only [evalText, bind, EStateM.bind]
  cases evalForms fuel (readText text).forms none s
  case error => rfl
  case ok    => cases (readText text).fault <;> rfl

-- Compiling and running know nothing of the text.
theorem below_of_eval {expr : Value} {e : Failure} {t : Session} {n : Nat}
    (h : eval fuel expr s = .error e t) : e.below n = e := by
  rcases error_of_bind h with h | ⟨_, _, _, h⟩
  case inr => cases h
  rcases error_of_bind h with h | ⟨_, _, _, h⟩
  case inl =>
    simp only [compile] at h
    split at h <;> cases h
    unfold Failure.ofCompileError
    split <;> rfl
  case inr =>
    simp only [run] at h
    split at h <;> cases h
    rfl

theorem below_of_evalForms {ds : List Datum} {last : Value} {e : Failure} {t : Session} {n : Nat}
    (h : evalForms fuel ds last s = .error e t) : e.below n = e := by
  induction ds generalizing s last
  case nil => cases h
  case cons d ds hi =>
    rcases error_of_bind h with h | ⟨expr, u, _, h⟩
    case inl => cases h
    rcases error_of_bind h with h | ⟨v, u', _, h⟩
    case inl => exact below_of_eval h
    case inr => exact hi h

-- If the first text is read to its end, the whole fails where one of the two does. The line in a fault
-- of the second text counts the lines above it.
theorem evalText_lines {first : String} (h : (readText first).fault = none) (second : String)
    (fuel : Nat) (s : Session) :
    evalText fuel (first ++ "\n" ++ second) s =
      match evalText fuel first s with
      | .error e t => .error e t
      | .ok v t    =>
        match evalText fuel second t with
        | .ok w u    => .ok (if (readText second).forms = [] then v else w) u
        | .error e u => .error (e.below (first.toList.count '\n' + 1)) u := by
  rw [evalText_eq, evalText_eq first, readText_lines h, h]
  simp only [Reading.after, Reading.below, evalForms_append, bind, EStateM.bind]
  cases hfirst : evalForms fuel (readText first).forms none s
  case error => rfl
  case ok v t =>
    simp only [evalForms_eq _ v, evalText_eq second]
    cases hsecond : evalForms fuel (readText second).forms none t
    case error e u => simp only [below_of_evalForms hsecond]
    case ok w u    => cases (readText second).fault <;> rfl

-- The first text ends in a comment, the second in a fault.
theorem commented_facts :
    (readText "(def x 6) ; six").fault = none ∧ "(def x 6) ; six".toList.count '\n' = 0 ∧
    (readText "(print (* x 7)) )").fault = some (.unexpectedClose ⟨1, 17⟩) ∧
    Ensures (evalForms 100 (readText "(def x 6) ; six").forms none) (.fresh (.fresh 0 0))
      (fun _ t => Ensures (evalForms 100 (readText "(print (* x 7)) )").forms none) t
        (fun _ u => u.output = "42\n") (fun _ => False)) (fun _ => False) := by
  decide +kernel

theorem evalText_lines_commented :
    (readText "(def x 6) ; six").fault = none ∧
    ∃ u, evalText 100 ("(def x 6) ; six" ++ "\n" ++ "(print (* x 7)) )") (.fresh (.fresh 0 0)) =
      .error (.read (.unexpectedClose ⟨2, 17⟩)) u ∧ u.output = "42\n" := by
  have hfacts := commented_facts
  generalize "(def x 6) ; six" = first at hfacts ⊢
  generalize "(print (* x 7)) )" = second at hfacts ⊢
  generalize Session.fresh (.fresh 0 0) = s at hfacts ⊢
  obtain ⟨hread, hlines, hfault, hforms⟩ := hfacts
  refine ⟨hread, ?_⟩
  rw [evalText_lines hread, evalText_eq first, hread, hlines]
  cases hfirst : evalForms 100 (readText first).forms none s
  case error => exact (hforms.of_error hfirst).elim
  case ok v t =>
    have hrest := hforms.of_ok hfirst
    cases hsecond : evalForms 100 (readText second).forms none t
    case error => exact (hrest.of_error hsecond).elim
    case ok w u =>
      simp only [evalText_eq second, hsecond, hfault]
      exact ⟨u, rfl, hrest.of_ok hsecond⟩

end SessionM
end CellLisp
