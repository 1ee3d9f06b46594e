import CellLisp.Datum.Progress
import Mathlib.Data.List.Infix

namespace CellLisp

def Token.atom? : Token → Option Atom
  | nil                            => some .nil
  | symbol name                    => some (.symbol name)
  | integer value                  => some (.int value)
  | string content                 => some (.bytes (Text.utf8 content))
  | openParen | closeParen | quote => none

namespace Grammar

mutual

-- A row of tokens is one expression, which denotes a datum.
inductive Expr : List Located → Datum → Prop
  | atom {t a} : t.token.atom? = some a → Expr [t] (.atom a)
  | quote {t ts d} : t.token = .quote → Expr ts d → Expr (t :: ts) d.quoted
  | list {o c ts ds} : o.token = .openParen → c.token = .closeParen → Exprs ts ds →
    Expr (o :: (ts ++ [c])) (.list ds)

-- A row of tokens is any number of expressions.
inductive Exprs : List Located → List Datum → Prop
  | nil : Exprs [] []
  | cons {ts us d ds} : Expr ts d → Exprs us ds → Exprs (ts ++ us) (d :: ds)

end

-- Expressions and rows of expressions go together.
theorem induct {P : List Located → Datum → Prop} {Q : List Located → List Datum → Prop}
    (atom : ∀ t a, t.token.atom? = some a → P [t] (.atom a))
    (quote : ∀ t ts d, t.token = .quote → P ts d → P (t :: ts) d.quoted)
    (list : ∀ o c ts ds, o.token = .openParen → c.token = .closeParen → Q ts ds →
      P (o :: (ts ++ [c])) (.list ds))
    (nil : Q [] [])
    (cons : ∀ ts us d ds, P ts d → Q us ds → Q (ts ++ us) (d :: ds)) :
    (∀ ts d, Expr ts d → P ts d) ∧ ∀ ts ds, Exprs ts ds → Q ts ds := by
  have expr (ts : List Located) (d : Datum) : Expr ts d → P ts d := by
    refine @Expr.rec (fun ts d _ => P ts d) (fun ts ds _ => Q ts ds) ?_ ?_ ?_ nil ?_ ts d
    case refine_1 => exact fun h => atom _ _ h
    case refine_2 => exact fun ht _ h => quote _ _ _ ht h
    case refine_3 => exact fun ho hc _ h => list _ _ _ _ ho hc h
    case refine_4 => exact fun _ _ h h' => cons _ _ _ _ h h'
  refine ⟨expr, fun ts ds h => ?_⟩
  induction ds generalizing ts
  case nil => cases h; exact nil
  case cons hi =>
    cases h
    case cons hd hs => exact cons _ _ _ _ (expr _ _ hd) (hi _ hs)

variable {ts us : List Located} {t : Located} {d : Datum} {ds : List Datum}

theorem Exprs.snoc (h : Exprs ts ds) (h' : Expr us d) : Exprs (ts ++ us) (ds ++ [d]) := by
  induction ds generalizing ts
  case nil =>
    cases h
    simpa using Exprs.cons h' .nil
  case cons hi =>
    cases h
    case cons hd hs => simpa using Exprs.cons hd (hi hs)

-- What a token does to the parentheses that are open, the innermost one first.
def track (opened : List Position) (t : Located) : List Position :=
  match t.token with
  | .openParen  => t.position :: opened
  | .closeParen => opened.tail
  | _           => opened

def openings (ts : List Located) : List Position :=
  ts.foldl track []

def EndsInQuote (ts : List Located) : Prop :=
  ts.getLast?.map (·.token) = some .quote

-- A parenthesis that closes nothing, or that stands where a quoted expression has to.
structure Stray (before : List Located) (t : Located) : Prop where
  close   : t.token = .closeParen
  nothing : openings before = [] ∨ EndsInQuote before

def Matched (ts : List Located) : Prop :=
  ∀ before t, before ++ [t] <+: ts → ¬ Stray before t

-- How a text ends too early: its tokens end with a lexical fault, or with something still open.
inductive EndFault (ts : Tokens) : ReadError → Prop
  | lexical {e} : ts.fault = some e → EndFault ts e
  | danglingQuote {before t} : ts.fault = none → ts.items = before ++ [t] → t.token = .quote →
    EndFault ts (.danglingQuote t.position)
  | unterminatedList {p outer} : ts.fault = none → ¬ EndsInQuote ts.items →
    openings ts.items = p :: outer → EndFault ts (.unterminatedList p)

-- The tokens of a text come before its lexical fault, and so does a stray parenthesis among them.
inductive FirstFault (ts : Tokens) : ReadError → Prop
  | unexpectedClose {before t after} : ts.items = before ++ t :: after → Matched before →
    Stray before t → FirstFault ts (.unexpectedClose t.position)
  | atEnd {e} : Matched ts.items → EndFault ts e → FirstFault ts e

theorem track_of_atom? {a : Atom} (h : t.token.atom? = some a) (opened : List Position) :
    track opened t = opened := by
  cases ht : t.token <;> simp_all [track, Token.atom?]

-- An expression closes what it opens.
theorem foldl_track :
    (∀ ts d, Expr ts d → ∀ opened, ts.foldl track opened = opened) ∧
    ∀ ts ds, Exprs ts ds → ∀ opened, ts.foldl track opened = opened := by
  apply induct
  case atom =>
    intro t a h opened
    exact track_of_atom? h opened
  case quote =>
    intro t ts d ht h opened
    simp [track, ht, h]
  case list =>
    intro o c ts ds ho hc h opened
    simp [track, ho, hc, h]
  case nil => simp
  case cons =>
    intro ts us d ds h h' opened
    simp [h, h']

theorem Exprs.openings_append (h : Exprs us ds) : openings (ts ++ us) = openings ts := by
  simp [openings, foldl_track.2 us ds h]

theorem endsInQuote_append (h : us ≠ []) : EndsInQuote (ts ++ us) ↔ EndsInQuote us := by
  simp [EndsInQuote, List.getLast?_append_of_ne_nil _ h]

theorem endsInQuote_snoc : EndsInQuote (ts ++ [t]) ↔ t.token = .quote := by
  simp [EndsInQuote]

-- What ends in a quote is not finished.
theorem not_endsInQuote :
    (∀ ts d, Expr ts d → ts ≠ [] ∧ ¬ EndsInQuote ts) ∧ ∀ ts ds, Exprs ts ds → ¬ EndsInQuote ts := by
  apply induct
  case atom =>
    intro t a h
    cases ht : t.token <;> simp_all [EndsInQuote, Token.atom?]
  case quote =>
    rintro t ts d - ⟨hne, h⟩
    refine ⟨by simp, ?_⟩
    rw [← List.singleton_append, endsInQuote_append hne]
    exact h
  case list =>
    intro o c ts ds _ hc _
    refine ⟨by simp, ?_⟩
    rw [← List.cons_append, endsInQuote_snoc]
    simp [hc]
  case nil => simp [EndsInQuote]
  case cons =>
    rintro ts us d ds ⟨_, h⟩ h'
    by_cases hus : us = []
    case pos => simpa [hus] using h
    case neg => exact (endsInQuote_append hus).not.mpr h'

theorem Exprs.endsInQuote_append (h : Exprs us ds) (hts : ¬ EndsInQuote ts) :
    ¬ EndsInQuote (ts ++ us) := by
  by_cases hus : us = []
  case pos => simpa [hus] using hts
  case neg => exact (Grammar.endsInQuote_append hus).not.mpr (not_endsInQuote.2 us ds h)

theorem matched_nil : Matched [] := by
  intro before t h
  simp at h

theorem Matched.snoc (h : Matched ts) (ht : ¬ Stray ts t) : Matched (ts ++ [t]) := by
  intro before u hp
  rcases List.prefix_concat_iff.mp hp with heq | hp
  case inl =>
    have ⟨hb, hu⟩ := List.append_inj' heq rfl
    cases hu
    exact hb ▸ ht
  case inr => exact h before u hp

theorem not_matched {before after : List Located} (h : ts = before ++ t :: after)
    (hs : Stray before t) : ¬ Matched ts :=
  fun hm => hm before t (by simp [h]) hs

theorem Stray.length_le {before before' after after' : List Located} {t' : Located}
    (hs : Stray before t) (hm : Matched before') (h : before ++ t :: after = before' ++ t' :: after') :
    before'.length ≤ before.length := by
  by_contra hlt
  have hb : before ++ [t] <+: before' ++ t' :: after' := by simp [← h]
  have hlength : (before ++ [t]).length ≤ before'.length := by
    rw [List.length_append]
    exact Nat.lt_of_not_le hlt
  exact hm before t (List.prefix_of_prefix_length_le hb (by simp) hlength) hs

theorem EndFault.unique {ts : Tokens} {e e' : ReadError} (h : EndFault ts e) (h' : EndFault ts e') :
    e = e' := by
  cases h <;> cases h' <;> simp_all [endsInQuote_snoc]

theorem FirstFault.unique {ts : Tokens} {e e' : ReadError} (h : FirstFault ts e)
    (h' : FirstFault ts e') : e = e' := by
  cases h <;> cases h'
  case unexpectedClose.unexpectedClose heq hm hs _ _ _ heq' hm' hs' =>
    rw [heq] at heq'
    have hlength := Nat.le_antisymm (hs'.length_le hm heq'.symm) (hs.length_le hm' heq')
    have ⟨_, htail⟩ := List.append_inj heq' hlength
    rw [(List.cons.inj htail).1]
  case unexpectedClose.atEnd heq _ hs hm _ => exact (not_matched heq hs hm).elim
  case atEnd.unexpectedClose hm _ _ _ _ heq _ hs => exact (not_matched heq hs hm).elim
  case atEnd.atEnd h _ h' => exact h.unique h'

end Grammar

-- What was read before comes first.
def Reading.after (forms : List Datum) (r : Reading) : Reading :=
  { r with forms := forms ++ r.forms }

namespace Reader

open Grammar

theorem parse_cons_of_ok {fault : Option ReadError} {stack stack' : List Frame} {t : Located}
    {ts : List Located} {forms : List Datum} (h : step stack t = .ok (forms, stack')) :
    parse fault stack (t :: ts) = (parse fault stack' ts).after forms := by
  simp only [parse, h, Reading.after]

-- What the reader has come to after some tokens: the forms that are finished, and what is open.
inductive Reached : List Datum → List Frame → List Located → Prop
  | forms {ts ds} : Exprs ts ds → Reached ds [] ts
  | list {forms stack ts o us items} : Reached forms stack ts → o.token = .openParen →
    Exprs us items.reverse → Reached forms (.list o.position items :: stack) (ts ++ o :: us)
  | quote {forms stack ts q} : Reached forms stack ts → q.token = .quote →
    Reached forms (.quote q.position :: stack) (ts ++ [q])

def Frame.opened? : Frame → Option Position
  | list opened _ => some opened
  | quote _       => none

variable {forms new : List Datum} {stack stack' : List Frame} {ts us : List Located} {t : Located}

namespace Reached

theorem openings_eq (h : Reached forms stack ts) : openings ts = stack.filterMap Frame.opened? := by
  induction h
  case forms h => simpa [openings] using foldl_track.2 _ _ h []
  case list stack ts o us items _ ho hus hi =>
    have hsplit : ts ++ o :: us = (ts ++ [o]) ++ us := by simp
    rw [hsplit, hus.openings_append]
    simp [openings, track, ho, Frame.opened?] at hi ⊢
    exact hi
  case quote hq hi =>
    simp [openings, track, hq, Frame.opened?] at hi ⊢
    exact hi

theorem endsInQuote_iff (h : Reached forms stack ts) :
    EndsInQuote ts ↔ ∃ p outer, stack = .quote p :: outer := by
  cases h
  case forms h => simp [not_endsInQuote.2 _ _ h]
  case list ts o us items ho hus _ =>
    have hsplit : ts ++ o :: us = (ts ++ [o]) ++ us := by simp
    have ho : ¬ EndsInQuote (ts ++ [o]) := endsInQuote_snoc.not.mpr (by simp [ho])
    refine iff_of_false ?_ (by simp)
    rw [hsplit]
    exact hus.endsInQuote_append ho
  case quote hq _ => simp [endsInQuote_snoc, hq]

-- A finished datum finishes the quotes that stand right before it.
theorem deliver {d : Datum} (h : Reached forms stack ts) (hd : Expr us d) :
    Reached (forms ++ (Reader.deliver d stack).1) (Reader.deliver d stack).2 (ts ++ us) := by
  induction stack generalizing ts us d
  case nil =>
    cases h
    case forms h => exact .forms (h.snoc hd)
  case cons frame stack hi =>
    cases h
    case list ts o vs items ho hvs h =>
      have hitems : Exprs (vs ++ us) (d :: items).reverse := by simpa using hvs.snoc hd
      simpa [Reader.deliver] using Reached.list h ho hitems
    case quote ts q hq h => simpa [Reader.deliver] using hi h (.quote hq hd)

theorem step (h : Reached forms stack ts) (hs : step stack t = .ok (new, stack')) :
    Reached (forms ++ new) stack' (ts ++ [t]) := by
  have delivered {stack : List Frame} {ts us : List Located} {d : Datum}
      (h : Reached forms stack ts) (hd : Expr us d)
      (hs : Except.ok (Reader.deliver d stack) = (.ok (new, stack') : Except ReadError _)) :
      Reached (forms ++ new) stack' (ts ++ us) := by
    have hd := h.deliver hd
    rwa [Except.ok.inj hs] at hd
  cases ht : t.token <;> simp only [Reader.step, ht] at hs
  case openParen =>
    cases hs
    simpa using Reached.list h ht .nil
  case closeParen =>
    split at hs
    case h_1 =>
      cases h
      case list ho hus h => simpa using delivered h (.list ho ht hus) hs
    case h_2 => cases hs
  case quote =>
    cases hs
    simpa using Reached.quote h ht
  all_goals exact delivered h (.atom (by rw [ht]; rfl)) hs

-- A parenthesis is stray where no list is open right around it.
theorem stray_iff (h : Reached forms stack ts) (ht : t.token = .closeParen) :
    Stray ts t ↔ ∀ p items outer, stack ≠ .list p items :: outer := by
  have hstray : Stray ts t ↔ openings ts = [] ∨ EndsInQuote ts := ⟨(·.nothing), (⟨ht, ·⟩)⟩
  rw [hstray, h.openings_eq, h.endsInQuote_iff]
  cases stack
  case nil => simp
  case cons frame outer => cases frame <;> simp [Frame.opened?]

theorem stray_of_step_error {e : ReadError} (h : Reached forms stack ts)
    (hs : Reader.step stack t = .error e) : Stray ts t ∧ e = .unexpectedClose t.position := by
  cases ht : t.token <;> simp only [Reader.step, ht] at hs <;> try cases hs
  split at hs <;> cases hs
  case h_2 hstack => exact ⟨(h.stray_iff ht).mpr hstack, rfl⟩

theorem not_stray_of_step_ok (h : Reached forms stack ts)
    (hs : Reader.step stack t = .ok (new, stack')) : ¬ Stray ts t := by
  intro hstray
  simp only [Reader.step, hstray.close] at hs
  split at hs
  case h_1 => exact (h.stray_iff hstray.close).mp hstray _ _ _ rfl
  case h_2 => cases hs

end Reached

-- What reading comes to at the end of the tokens.
theorem endFault_of_unfinished {e : ReadError} (h : Reached forms stack ts)
    (hu : unfinished stack = some e) : EndFault ⟨ts, none⟩ e := by
  cases h
  case forms => cases hu
  case list ho hus h =>
    cases hu
    have h := Reached.list h ho hus
    refine .unterminatedList rfl ?_ h.openings_eq
    simp [h.endsInQuote_iff]
  case quote hq h =>
    cases hu
    exact .danglingQuote rfl rfl hq

structure Accepts (items : List Located) (fault : Option ReadError) (ds : List Datum) : Prop where
  lexed    : fault = none
  derives  : Exprs items ds
  matched  : Matched items

-- By induction on the tokens that are left, with those before them accounted for by `Reached`.
theorem parse_cases (fault : Option ReadError) (us : List Located) (h : Reached forms stack ts)
    (hm : Matched ts) :
    match (parse fault stack us).fault with
    | none   => Accepts (ts ++ us) fault (forms ++ (parse fault stack us).forms)
    | some e => FirstFault ⟨ts ++ us, fault⟩ e := by
  induction us generalizing forms stack ts
  case nil =>
    cases fault
    case some e => simpa [parse] using FirstFault.atEnd hm (.lexical rfl)
    case none =>
      cases hu : unfinished stack
      case some e => simpa [parse, hu] using FirstFault.atEnd hm (endFault_of_unfinished h hu)
      case none =>
        cases h <;> simp [unfinished] at hu
        case forms h => simpa [parse, unfinished] using ⟨rfl, h, hm⟩
  case cons t us hi =>
    cases hs : Reader.step stack t
    case error e =>
      obtain ⟨hstray, he⟩ := h.stray_of_step_error hs
      simpa [parse, hs, he] using FirstFault.unexpectedClose rfl hm hstray
    case ok result =>
      have hm := hm.snoc (h.not_stray_of_step_ok hs)
      simpa [parse, hs] using hi (h.step hs) hm

-- An expression is read to the datum that it denotes, whatever is open around it.
theorem parse_expr {fault : Option ReadError} :
    (∀ ts d, Expr ts d → ∀ stack us, parse fault stack (ts ++ us) =
      (parse fault (deliver d stack).2 us).after (deliver d stack).1) ∧
    ∀ ts ds, Exprs ts ds → ∀ p items stack us, parse fault (.list p items :: stack) (ts ++ us) =
      parse fault (.list p (ds.reverse ++ items) :: stack) us := by
  apply induct
  case atom =>
    intro t a ha stack us
    have hs : step stack t = .ok (deliver (.atom a) stack) := by
      cases ht : t.token <;> simp_all [Token.atom?, step]
    exact parse_cons_of_ok hs
  case quote =>
    intro t ts d ht h stack us
    have hs : step stack t = .ok ([], .quote t.position :: stack) := by simp [step, ht]
    rw [List.cons_append, parse_cons_of_ok hs, h]
    rfl
  case list =>
    intro o c ts ds ho hc h stack us
    have hopen : step stack o = .ok ([], .list o.position [] :: stack) := by simp [step, ho]
    have hclose : step (.list o.position ds.reverse :: stack) c = .ok (deliver (.list ds) stack) := by
      simp [step, hc]
    rw [List.cons_append, List.append_assoc, parse_cons_of_ok hopen, h, List.append_nil,
      List.singleton_append, parse_cons_of_ok hclose]
    rfl
  case nil => simp
  case cons =>
    intro ts us d ds h h' p items stack vs
    rw [List.append_assoc, h]
    simp [deliver, h', Reading.after]

theorem parse_exprs {fault : Option ReadError} {ds : List Datum} (h : Exprs ts ds) :
    parse fault [] ts = ⟨ds, fault⟩ := by
  induction ds generalizing ts
  case nil =>
    cases h
    cases fault <;> rfl
  case cons hi =>
    cases h
    case cons hd hs => simp [parse_expr.1 _ _ hd, deliver, hi hs, Reading.after]

variable {fault : Option ReadError}

theorem all_parse_eq_ok_iff {ds : List Datum} :
    (parse fault [] ts).all = .ok ds ↔ fault = none ∧ Exprs ts ds := by
  constructor
  case mp =>
    intro h
    have hcases := parse_cases fault ts (.forms .nil) matched_nil
    cases hf : (parse fault [] ts).fault <;> simp only [Reading.all, hf, reduceCtorEq] at h hcases
    cases h
    exact ⟨hcases.lexed, by simpa using hcases.derives⟩
  case mpr =>
    rintro ⟨hf, h⟩
    simp [Reading.all, parse_exprs h, hf]

theorem all_parse_eq_error_iff {e : ReadError} :
    (parse fault [] ts).all = .error e ↔ FirstFault ⟨ts, fault⟩ e := by
  have hcases := parse_cases fault ts (.forms .nil) matched_nil
  cases hf : (parse fault [] ts).fault <;> simp only [Reading.all, hf, reduceCtorEq] at hcases ⊢
  case none =>
    have ⟨hlexed, hderives, hmatched⟩ := hcases
    simp only [List.nil_append] at hderives hmatched
    refine iff_of_false id (fun h => ?_)
    cases h
    case unexpectedClose heq _ hs => exact not_matched heq hs hmatched
    case atEnd h =>
      cases h
      case lexical hfault => simp [hlexed] at hfault
      case danglingQuote _ heq hq =>
        have hends : EndsInQuote ts := by rw [show ts = _ from heq, endsInQuote_snoc, hq]
        exact not_endsInQuote.2 _ _ hderives hends
      case unterminatedList _ _ ho => simp [openings, foldl_track.2 _ _ hderives] at ho
  case some e' =>
    refine ⟨fun h => ?_, fun h => ?_⟩
    · cases h
      exact hcases
    · rw [hcases.unique h]

end Reader

theorem dropScriptLine_of_not_prefix {text : String} (h : ¬ ['#', '!'] <+: text.toList) :
    dropScriptLine text = text := by
  unfold dropScriptLine
  split
  case h_1 heq => simp [heq] at h
  case h_2     => rfl

theorem readScript_all_iff {text : String} (h : ¬ ['#', '!'] <+: text.toList) :
    (∀ ds, (readScript text).all = .ok ds ↔
      (tokens text.toList).fault = none ∧ Grammar.Exprs (tokens text.toList).items ds) ∧
    ∀ e, (readScript text).all = .error e ↔ Grammar.FirstFault (tokens text.toList) e := by
  rw [readScript, dropScriptLine_of_not_prefix h]
  exact ⟨fun _ => Reader.all_parse_eq_ok_iff, fun _ => Reader.all_parse_eq_error_iff⟩

-- A quote inside of a list, with nothing after it but the end of the list.
theorem firstFault_of_quoted_close :
    ¬ ['#', '!'] <+: "(a ')".toList ∧
      Grammar.FirstFault (tokens "(a ')".toList) (.unexpectedClose ⟨1, 5⟩) :=
  have h : ¬ ['#', '!'] <+: "(a ')".toList := by decide
  ⟨h, ((readScript_all_iff h).2 _).mp (by decide)⟩

end CellLisp
