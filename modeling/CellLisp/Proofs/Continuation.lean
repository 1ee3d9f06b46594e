import CellLisp.Console
import CellLisp.Proofs.Grammar

namespace CellLisp

-- The text has a fault, which is gone in some longer text.
def Continuable (text : String) : Prop :=
  (readText text).fault ≠ none ∧ ∃ more, (readText (text ++ more)).fault = none

-- The faults that have a place inside of a text. The others are seen where it ends.
inductive ReadError.Inner : ReadError → Prop
  | close (place)        : Inner (.unexpectedClose place)
  | integer (text place) : Inner (.invalidInteger text place)

-- More text mends no fault inside of a text.
theorem ReadError.Inner.isUnfinished {e : ReadError} (h : e.Inner) : e.isUnfinished = false := by
  cases h <;> rfl

namespace Reader

theorem inner_of_step {stack : List Frame} {t : Located} {e : ReadError}
    (h : step stack t = .error e) : e.Inner := by
  unfold step at h
  split at h <;> try cases h
  split at h <;> cases h
  exact .close _

theorem opened?_deliver (d : Datum) (stack : List Frame) :
    (deliver d stack).2.filterMap Frame.opened? = stack.filterMap Frame.opened? := by
  induction stack generalizing d
  case nil => rfl
  case cons frame stack hi =>
    cases frame
    case list  => rfl
    case quote => exact hi _

-- A datum is handed on as long as there are quotes.
theorem deliver_cases (d : Datum) (stack : List Frame) :
    (deliver d stack).2 = [] ∨ ∃ p items outer, (deliver d stack).2 = .list p items :: outer := by
  induction stack generalizing d
  case nil => exact .inl rfl
  case cons frame stack hi =>
    cases frame
    case list  => exact .inr ⟨_, _, _, rfl⟩
    case quote => exact hi _

end Reader

namespace Progress

open Lexer (Mode)
open Reader (deliver)

variable {p q : Progress} {cs : List Char} {stack : List Reader.Frame}

theorem fault_readText (text : String) :
    (readText text).fault =
      match ({} : Progress).read text.toList with
      | .ok p    => p.fault
      | .error e => some e :=
  fault_parse_scan {} text.toList

theorem inner_of_lexer_step {mode : Mode} {place : Position} {c : Char} {e : ReadError}
    (h : Lexer.step mode place c = .error e) : e.Inner := by
  cases mode
  case gap     => cases h
  case comment => cases h
  case string opened escaped content =>
    cases escaped
    case true  => cases h
    case false => simp only [Lexer.step] at h; split at h <;> cases h
  case atom begun spelling =>
    rw [Lexer.step] at h
    split at h
    case isFalse => cases h
    case isTrue =>
      cases ha : Lexer.atom begun spelling.reverse <;> rw [ha] at h <;> cases h
      unfold Lexer.atom at ha
      repeat' split at ha
      all_goals cases ha
      exact .integer _ _

theorem inner_of_take {ts : List Located} {e : ReadError} (h : take stack ts = .error e) : e.Inner := by
  induction ts generalizing stack
  case nil => cases h
  case cons t ts hi =>
    rw [take, List.foldlM_cons] at h
    cases hs : Reader.step stack t <;> rw [hs] at h
    case error => cases h; exact Reader.inner_of_step hs
    case ok    => exact hi h

theorem inner_of_step {c : Char} {e : ReadError} (h : p.step c = .error e) : e.Inner := by
  rw [step] at h
  cases hl : Lexer.step p.mode p.position c <;> rw [hl] at h
  case error => cases h; exact inner_of_lexer_step hl
  case ok result =>
    simp only [bind, Except.bind] at h
    split at h <;> cases h
    case h_1 ht => exact inner_of_take ht

theorem inner_of_read {e : ReadError} (h : p.read cs = .error e) : e.Inner := by
  induction cs generalizing p
  case nil => cases h
  case cons c cs hi =>
    rw [read, List.foldlM_cons] at h
    cases hs : p.step c <;> rw [hs] at h
    case error => cases h; exact inner_of_step hs
    case ok    => exact hi h

theorem needsMore_readText (text : String) :
    (readText text).needsMore =
      match ({} : Progress).read text.toList with
      | .ok p    => p.needsMore
      | .error _ => false := by
  rw [Reading.needsMore, fault_readText]
  cases hr : ({} : Progress).read text.toList
  case ok p    => rfl
  case error e => exact (inner_of_read hr).isUnfinished

-- Some more text leads to the end of everything.
def Finishable (p : Progress) : Prop :=
  ∃ cs q, p.read cs = .ok q ∧ q.fault = none

theorem Finishable.of_read (cs : List Char) (h : p.read cs = .ok q) (hq : q.Finishable) : p.Finishable := by
  obtain ⟨ds, q', hread, hfault⟩ := hq
  refine ⟨cs ++ ds, q', ?_, hfault⟩
  rw [read_append, h]
  exact hread

-- A fault inside of a text stays whatever comes after it.
theorem exists_more_iff (text : String) :
    (∃ more, (readText (text ++ more)).fault = none) ↔
      ∃ p, ({} : Progress).read text.toList = .ok p ∧ p.Finishable := by
  simp only [fault_readText, String.toList_append, read_append]
  cases ({} : Progress).read text.toList
  case error e => simp [bind, Except.bind]
  case ok p =>
    simp only [bind, Except.bind, Except.ok.injEq, exists_eq_left']
    constructor
    case mp =>
      rintro ⟨more, hmore⟩
      split at hmore
      case h_1 q hq => exact ⟨more.toList, q, hq, hmore⟩
      case h_2      => cases hmore
    case mpr =>
      rintro ⟨cs, q, hq, hfault⟩
      exact ⟨String.ofList cs, by simp [hq, hfault]⟩

theorem finishable_of_delivered (d : Datum) (place : Position) :
    Finishable ⟨.gap, place, (deliver d stack).2⟩ := by
  -- By induction on the lists that are open. The one that is closed becomes a datum itself.
  generalize hn : (stack.filterMap Reader.Frame.opened?).length = n
  induction n generalizing stack d place
  case zero =>
    rcases Reader.deliver_cases d stack with hs | ⟨p, items, outer, hs⟩
    case inl => exact ⟨[], _, rfl, by rw [hs]; rfl⟩
    case inr =>
      rw [← Reader.opened?_deliver d, hs] at hn
      cases hn
  case succ n hi =>
    rcases Reader.deliver_cases d stack with hs | ⟨p, items, outer, hs⟩
    case inl =>
      rw [← Reader.opened?_deliver d, hs] at hn
      cases hn
    case inr =>
      rw [← Reader.opened?_deliver d, hs] at hn
      rw [hs]
      exact .of_read [')'] rfl (hi (.list items.reverse) _ (Nat.succ.inj hn))

-- What the lexer can be inside of at the beginning of a line.
def BeginsLine (p : Progress) : Prop :=
  p.mode = .gap ∨ ∃ opened content, p.mode = .string opened false content

theorem BeginsLine.finishable (h : p.BeginsLine) : p.Finishable := by
  obtain ⟨mode, place, stack⟩ := p
  rcases h with rfl | ⟨opened, content, rfl⟩
  case inl => exact .of_read ['(', ')'] rfl (finishable_of_delivered (.list []) _)
  case inr =>
    let bytes := Text.utf8 (String.ofList content.reverse)
    exact .of_read ['"'] rfl (finishable_of_delivered (.atom (.bytes bytes)) _)

theorem mode_of_newline {mode mode' : Mode} {place : Position} {ts : List Located}
    (h : Lexer.step mode place '\n' = .ok (mode', ts)) :
    mode' = .gap ∨ ∃ opened content, mode' = .string opened false content := by
  cases mode
  case gap     => cases h; exact .inl rfl
  case comment => cases h; exact .inl rfl
  case string opened escaped content => cases escaped <;> cases h <;> exact .inr ⟨_, _, rfl⟩
  case atom begun spelling =>
    have hends : Lexer.endsAtom '\n' := by decide
    rw [Lexer.step, if_pos hends] at h
    cases ha : Lexer.atom begun spelling.reverse <;> rw [ha] at h <;> cases h
    exact .inl rfl

theorem beginsLine_of_read (h : p.read (cs ++ ['\n']) = .ok q) : q.BeginsLine := by
  rw [read_append] at h
  cases hp : p.read cs <;> rw [hp] at h
  case error => cases h
  case ok p' =>
    have h : p'.step '\n' >>= pure = .ok q := h
    rw [bind_pure, step] at h
    cases hl : Lexer.step p'.mode p'.position '\n' <;> rw [hl] at h
    case error => cases h
    case ok result =>
      simp only [bind, Except.bind] at h
      split at h <;> cases h
      exact mode_of_newline hl

theorem BeginsLine.needsMore_iff (h : p.BeginsLine) :
    p.needsMore ↔ p.fault ≠ none ∧ ∀ place, p.fault ≠ some (.danglingQuote place) := by
  obtain ⟨mode, place, stack⟩ := p
  rcases h with rfl | ⟨opened, content, rfl⟩
  case inr =>
    have hfault : fault ⟨.string opened false content, place, stack⟩ = some (.unterminatedString opened) := rfl
    simp [needsMore, hfault, ReadError.isUnfinished]
  case inl =>
    have hfault : fault ⟨.gap, place, stack⟩ = Reader.unfinished stack := rfl
    simp only [needsMore, hfault]
    cases stack
    case nil => simp [Reader.unfinished]
    case cons frame stack => cases frame <;> simp [Reader.unfinished, ReadError.isUnfinished]

end Progress

open Progress in
theorem continuable_iff {text : String} {p : Progress} (h : ({} : Progress).read text.toList = .ok p)
    (hline : p.BeginsLine) : Continuable text ↔ p.fault ≠ none := by
  have hmore : ∃ more, (readText (text ++ more)).fault = none :=
    (exists_more_iff text).mpr ⟨p, h, hline.finishable⟩
  rw [Continuable, and_iff_left hmore, fault_readText, h]

namespace Console

variable {fuel : Nat} {d : Dialogue} {line : String}

-- The dialogue goes on, and it has read what was typed and not evaluated yet.
structure Dialogue.Listens (d : Dialogue) : Prop where
  goesOn : d.ended = false
  reads  : ({} : Progress).read d.chunk.toList = .ok d.progress

-- The dialogue has taken the text up and waits for the next line. Nothing is evaluated.
structure Dialogue.Keeps (d : Dialogue) (text : String) (d' : Dialogue) : Prop where
  listens : d'.Listens
  chunk   : d'.chunk = text
  state   : d'.state = d.state

namespace Dialogue

theorem Listens.begin (st : State) : Listens { state := st } := ⟨rfl, rfl⟩

theorem Listens.read_line (h : d.Listens) :
    ({} : Progress).read (d.chunk ++ (line ++ "\n")).toList =
      d.progress.read (line ++ "\n").toList := by
  rw [String.toList_append, Progress.read_append, h.reads]
  rfl

theorem Listens.feed_of_needsMore (h : d.Listens)
    (hn : (readText (d.chunk ++ (line ++ "\n"))).needsMore = true) :
    d.Keeps (d.chunk ++ (line ++ "\n")) (d.feed fuel line) := by
  rw [Progress.needsMore_readText, h.read_line] at hn
  simp only [feed, h.goesOn, Bool.false_eq_true, ↓reduceIte]
  cases hp : d.progress.read (line ++ "\n").toList <;> rw [hp] at hn
  case error => cases hn
  case ok p =>
    simp only [hn, ↓reduceIte]
    exact ⟨⟨rfl, h.read_line.trans hp⟩, rfl, rfl⟩

theorem Listens.feed_of_not_needsMore (h : d.Listens)
    (hn : (readText (d.chunk ++ (line ++ "\n"))).needsMore = false) :
    d.feed fuel line = d.answer fuel (d.chunk ++ (line ++ "\n")) := by
  rw [Progress.needsMore_readText, h.read_line] at hn
  simp only [feed, h.goesOn, Bool.false_eq_true, ↓reduceIte]
  cases hp : d.progress.read (line ++ "\n").toList <;> rw [hp] at hn
  case ok p => simp only [hn, Bool.false_eq_true, ↓reduceIte]

theorem Listens.feed (h : d.Listens) : (d.feed fuel line).ended = true ∨ (d.feed fuel line).Listens := by
  cases hn : (readText (d.chunk ++ (line ++ "\n"))).needsMore
  case true  => exact .inr (h.feed_of_needsMore hn).listens
  case false =>
    rw [h.feed_of_not_needsMore hn, answer]
    split
    case isTrue  => exact .inl rfl
    case isFalse => exact .inr (.begin _)

theorem listens_foldl (fuel : Nat) (lines : List String) (h : d.ended = true ∨ d.Listens) :
    (lines.foldl (feed fuel) d).ended = true ∨ (lines.foldl (feed fuel) d).Listens := by
  induction lines generalizing d
  case nil => exact h
  case cons line lines hi =>
    refine hi ?_
    rcases h with h | h
    case inl => exact .inl (by simp only [feed, h, ↓reduceIte])
    case inr => exact h.feed

end Dialogue

-- What becomes of a text that ends with a line, and of a dialogue in which it has been typed since
-- something was last evaluated.
structure Awaits (text : String) : Prop where
  needsMore :
    (readText text).needsMore = true ↔
      Continuable text ∧ ∀ place, (readText text).fault ≠ some (.danglingQuote place)
  dangling : ∀ place, (readText text).fault = some (.danglingQuote place) → Continuable text
  keeps : ∀ fuel st lines line,
    let d := List.foldl (Dialogue.feed fuel) { state := st } lines
    d.ended = false → d.chunk ++ (line ++ "\n") = text → (readText text).needsMore = true →
      d.Keeps text (d.feed fuel line)
  answers : ∀ fuel st lines line,
    let d := List.foldl (Dialogue.feed fuel) { state := st } lines
    d.ended = false → d.chunk ++ (line ++ "\n") = text → (readText text).needsMore = false →
      d.feed fuel line = d.answer fuel text

theorem Dialogue.listens_of_lines (fuel : Nat) (st : State) (lines : List String)
    (h : (lines.foldl (Dialogue.feed fuel) { state := st }).ended = false) :
    (lines.foldl (Dialogue.feed fuel) { state := st }).Listens := by
  rcases listens_foldl fuel lines (.inr (.begin st)) with hended | hlistens
  case inl => rw [h] at hended; cases hended
  case inr => exact hlistens

open Progress in
theorem needsMore_iff_of_newline {text : String} (h : text.toList.getLast? = some '\n') :
    (readText text).needsMore = true ↔
      Continuable text ∧ ∀ place, (readText text).fault ≠ some (.danglingQuote place) := by
  obtain ⟨cs, hcs⟩ := List.getLast?_eq_some_iff.mp h
  rw [needsMore_readText]
  cases hr : ({} : Progress).read text.toList
  case error e =>
    have hnot : ¬ Continuable text := by
      rintro ⟨_, hmore⟩
      obtain ⟨p, hp, _⟩ := (exists_more_iff text).mp hmore
      rw [hr] at hp
      cases hp
    simp [hnot]
  case ok p =>
    have hline : p.BeginsLine := beginsLine_of_read (hcs ▸ hr)
    rw [continuable_iff hr hline, fault_readText, hr]
    exact hline.needsMore_iff

open Progress in
theorem continuable_of_danglingQuote {text : String} {place : Position}
    (h : text.toList.getLast? = some '\n')
    (hd : (readText text).fault = some (.danglingQuote place)) : Continuable text := by
  obtain ⟨cs, hcs⟩ := List.getLast?_eq_some_iff.mp h
  rw [fault_readText] at hd
  cases hr : ({} : Progress).read text.toList <;> rw [hr] at hd
  case error e =>
    cases hd
    cases inner_of_read hr
  case ok p =>
    refine (continuable_iff hr (beginsLine_of_read (hcs ▸ hr))).mpr fun hnone => ?_
    rw [show p.fault = some (.danglingQuote place) from hd] at hnone
    cases hnone

theorem awaits_of_newline (text : String) (h : text.toList.getLast? = some '\n') : Awaits text where
  needsMore := needsMore_iff_of_newline h
  dangling  := fun _ hd => continuable_of_danglingQuote h hd
  keeps     := by
    rintro fuel st lines line d hd rfl hn
    exact (Dialogue.listens_of_lines fuel st lines hd).feed_of_needsMore hn
  answers   := by
    rintro fuel st lines line d hd rfl hn
    exact (Dialogue.listens_of_lines fuel st lines hd).feed_of_not_needsMore hn

-- A line that ends inside of a list is kept, unless it ends after a quote.
theorem awaits_of_newline_unclosed :
    "(a\n".toList.getLast? = some '\n' ∧ "(a '\n".toList.getLast? = some '\n' ∧
      Continuable "(a '\n" ∧
      ∀ st, Dialogue.Keeps { state := st } "(a\n" (Dialogue.feed 9 { state := st } "(a") ∧
        Dialogue.feed 9 { state := st } "(a '" = Dialogue.answer 9 { state := st } "(a '\n" := by
  have hkept := awaits_of_newline "(a\n" (by decide)
  have hgiven := awaits_of_newline "(a '\n" (by decide)
  have hopen : (readText "(a\n").needsMore = true := by decide +kernel
  have hquote : (readText "(a '\n").fault = some (.danglingQuote ⟨1, 4⟩) := by decide +kernel
  have hclosed : (readText "(a '\n").needsMore = false := by rw [Reading.needsMore, hquote]; rfl
  have hfirst : "" ++ ("(a" ++ "\n") = "(a\n" := by decide
  have hsecond : "" ++ ("(a '" ++ "\n") = "(a '\n" := by decide
  refine ⟨by decide, by decide, hgiven.dangling _ hquote, fun st => ⟨?_, ?_⟩⟩
  case refine_1 => exact hkept.keeps 9 st [] "(a" rfl hfirst hopen
  case refine_2 => exact hgiven.answers 9 st [] "(a '" rfl hsecond hclosed

theorem not_needsMore_of_continuable :
    ¬ ∀ text : String, text.toList.getLast? = some '\n' →
      ((readText text).needsMore = true ↔ Continuable text) := by
  intro h
  have hfault : (readText "(a '\n").fault = some (.danglingQuote ⟨1, 4⟩) := by decide +kernel
  have hcontinuable : Continuable "(a '\n" := continuable_of_danglingQuote (by decide) hfault
  have hneeds := (h "(a '\n" (by decide)).mpr hcontinuable
  rw [Reading.needsMore, hfault] at hneeds
  cases hneeds

end Console
end CellLisp
