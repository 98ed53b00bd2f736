import ChainCompiler.Parser.Expr
import ChainCompiler.Proofs.Derivation
import ChainCompiler.Proofs.Opening

/-! Which brackets are open after some tokens, and which names their members have so far. A whole expression leaves the
brackets around it as they were, and so does one that is broken off, apart from the brackets that it leaves open. -/

namespace ChainCompiler

/-- What a bracket encloses: the arguments of a call, the entries of an object, or something without names. -/
inductive Enclosure where
  | arguments | object | plain
  deriving DecidableEq, Repr

def Enclosure.name? : Enclosure → Token → Option String
  | .arguments, t => if Parser.isNameKind t.kind then some t.text else none
  | .object, t => Parser.keyText? t
  | .plain, _ => none

/-- An open bracket, with the names of the members that were started in it. -/
structure Bracket where
  enclosure : Enclosure
  names : List String
  deriving DecidableEq, Repr

def Bracket.note (b : Bracket) (t : Token) : Bracket := { b with names := b.names ++ (b.enclosure.name? t).toList }

theorem Bracket.note_plain {b : Bracket} (h : b.enclosure = .plain) (t : Token) : b.note t = b := by
  obtain ⟨enclosure, names⟩ := b
  obtain rfl : enclosure = .plain := h
  simp [Bracket.note, Enclosure.name?]

/-- What has to be known of the tokens read so far: the kind of the last one that is no newline, and the brackets that
are open, the innermost first. -/
structure Nesting where
  last : Option Kind
  brackets : List Bracket
  deriving DecidableEq, Repr

namespace Nesting

def empty : Nesting := ⟨none, []⟩

def starters : List Kind := [.mark .lparen, .mark .lbracket, .mark .lbrace, .mark .comma]

/-- A member starts with the next token. -/
def AtStart (n : Nesting) : Prop := ∃ k ∈ starters, n.last = some k

instance (n : Nesting) : Decidable n.AtStart := inferInstanceAs (Decidable (∃ k ∈ starters, n.last = some k))

/-- What a mark opens. A brace that comes after a call or after a name opens a block, any other one an object. -/
def opened? (n : Nesting) : Mark → Option Enclosure
  | .lparen => some .arguments
  | .lbracket => some .plain
  | .lbrace => some (if n.last = some (.mark .rparen) ∨ n.last = some .identifier then .plain else .object)
  | _ => none

def isClosing : Mark → Bool
  | .rparen | .rbracket | .rbrace => true
  | _ => false

def bracketsAfter (n : Nesting) (t : Token) : List Bracket :=
  match t.kind with
  | .mark m =>
    match n.opened? m with
    | some enclosure => ⟨enclosure, []⟩ :: n.brackets
    | none => if isClosing m then n.brackets.tail else n.brackets
  | _ => if n.AtStart then n.brackets.modifyHead (·.note t) else n.brackets

def read (n : Nesting) (t : Token) : Nesting := if t.kind = .newline then n else ⟨some t.kind, n.bracketsAfter t⟩

def reads (n : Nesting) (ts : List Token) : Nesting := ts.foldl read n

/-- The innermost open bracket, if there is one, has no names. -/
def Plain (n : Nesting) : Prop := ∀ b ∈ n.brackets.head?, b.enclosure = .plain

/-- No open argument list and no open object has a name twice. -/
def Distinct (n : Nesting) : Prop := ∀ b ∈ n.brackets, b.names.Nodup

instance (n : Nesting) : Decidable n.Distinct := inferInstanceAs (Decidable (∀ b ∈ n.brackets, b.names.Nodup))

/-- In `f(a = {b: c, b` the call has the name `a` and the object in it has the key `b` twice. -/
example :
    let tokens : List (Kind × String) :=
      [(.identifier, "f"), (.mark .lparen, "("), (.identifier, "a"), (.mark .assign, "="), (.mark .lbrace, "\x7b"),
        (.identifier, "b"), (.mark .colon, ":"), (.identifier, "c"), (.mark .comma, ","), (.identifier, "b")]
    (empty.reads (tokens.map fun t => ⟨t.1, t.2, .start⟩)).brackets =
      [⟨.object, ["b", "b"]⟩, ⟨.arguments, ["a"]⟩] := by
  decide

@[simp] theorem reads_nil (n : Nesting) : n.reads [] = n := rfl

@[simp] theorem reads_cons (n : Nesting) (t : Token) (ts : List Token) : n.reads (t :: ts) = (n.read t).reads ts := rfl

@[simp] theorem reads_append (n : Nesting) (ts us : List Token) : n.reads (ts ++ us) = (n.reads ts).reads us :=
  List.foldl_append

theorem reads_newlines {nl : List Token} (h : Grammar.Newlines nl) (n : Nesting) : n.reads nl = n := by
  induction nl with
  | nil => rfl
  | cons t nl ih =>
    rw [reads_cons, read, if_pos (h t (by simp))]
    exact ih fun u hu => h u (by simp [hu])

section Read

variable {n : Nesting} {t : Token}

theorem last_read (ht : t.kind ≠ .newline) : (n.read t).last = some t.kind := by
  rw [read, if_neg ht]

theorem brackets_read (ht : t.kind ≠ .newline) : (n.read t).brackets = n.bracketsAfter t := by
  rw [read, if_neg ht]

theorem not_atStart_read (ht : t.kind ≠ .newline) (hk : t.kind ∉ starters) : ¬(n.read t).AtStart := by
  rintro ⟨k, hmem, hlast⟩
  rw [last_read ht, Option.some.injEq] at hlast
  exact hk (hlast ▸ hmem)

theorem atStart_read (hk : t.kind ∈ starters) : (n.read t).AtStart := by
  have ht : t.kind ≠ .newline := by
    intro h
    rw [h] at hk
    exact absurd hk (by decide)
  exact ⟨t.kind, hk, last_read ht⟩

theorem brackets_read_open {m : Mark} {enclosure : Enclosure} (ht : t.kind = .mark m)
    (hm : n.opened? m = some enclosure) : (n.read t).brackets = ⟨enclosure, []⟩ :: n.brackets := by
  rw [brackets_read (by simp [ht]), bracketsAfter, ht]
  simp only [hm]

theorem brackets_read_close {m : Mark} (ht : t.kind = .mark m) (hm : isClosing m = true) :
    (n.read t).brackets = n.brackets.tail := by
  rw [brackets_read (by simp [ht]), bracketsAfter, ht]
  cases m <;> simp_all [opened?, isClosing]

/-- A mark that is no bracket changes no brackets. -/
theorem brackets_read_mark {m : Mark} (ht : t.kind = .mark m) (hopen : ∀ n : Nesting, n.opened? m = none)
    (hclose : isClosing m = false) : (n.read t).brackets = n.brackets := by
  rw [brackets_read (by simp [ht]), bracketsAfter, ht]
  simp only [hopen, hclose, Bool.false_eq_true, if_false]

/-- A token that starts a member gives it a name. -/
theorem brackets_read_start {b : Bracket} {bs : List Bracket} (ht : t.kind ≠ .newline) (hmark : ∀ m, t.kind ≠ .mark m)
    (hstart : n.AtStart) (hn : n.brackets = b :: bs) : (n.read t).brackets = b.note t :: bs := by
  rw [brackets_read ht, bracketsAfter]
  split
  · next m hm => exact absurd hm (hmark m)
  · rw [if_pos hstart, hn]
    rfl

/-- In a bracket without names no token changes anything. -/
theorem brackets_read_plain (ht : t.kind ≠ .newline) (hmark : ∀ m, t.kind ≠ .mark m) (hn : n.Plain) :
    (n.read t).brackets = n.brackets := by
  rw [brackets_read ht, bracketsAfter]
  split
  · next m hm => exact absurd hm (hmark m)
  · split
    · cases hb : n.brackets with
      | nil => rfl
      | cons b bs => rw [List.modifyHead_cons, Bracket.note_plain (hn b (by simp [hb]))]
    · rfl

theorem brackets_read_inner (ht : t.kind ≠ .newline) (hmark : ∀ m, t.kind ≠ .mark m) (hstart : ¬n.AtStart) :
    (n.read t).brackets = n.brackets := by
  rw [brackets_read ht, bracketsAfter]
  split
  · next m hm => exact absurd hm (hmark m)
  · rw [if_neg hstart]

end Read

end Nesting

open Nesting (starters)

/-- The tokens leave the brackets below the innermost one. -/
def Loose (ts : List Token) : Prop :=
  ∀ (n : Nesting) (b : Bracket) (bs : List Bracket), n.brackets = b :: bs → ∃ b', (n.reads ts).brackets = b' :: bs

/-- They leave that one too, unless they start a member with a name. -/
def Level (ts : List Token) : Prop :=
  Loose ts ∧ ∀ n : Nesting, ¬n.AtStart ∨ n.Plain → (n.reads ts).brackets = n.brackets

/-- The same as `Level` for tokens that may leave brackets of their own open. -/
def Inside (ts : List Token) : Prop :=
  ∀ (n : Nesting) (b : Bracket) (bs : List Bracket), n.brackets = b :: bs →
    ∃ own b', (n.reads ts).brackets = own ++ b' :: bs ∧ (¬n.AtStart → b' = b)

/-- The same as `Loose` for tokens that may leave brackets of their own open. -/
def Under (ts : List Token) : Prop :=
  ∀ (n : Nesting) (b : Bracket) (bs : List Bracket), n.brackets = b :: bs →
    ∃ own b', (n.reads ts).brackets = own ++ b' :: bs

theorem Level.loose {ts : List Token} (h : Level ts) : Loose ts := h.1

theorem Inside.under {ts : List Token} (h : Inside ts) : Under ts := by
  intro n b bs hn
  obtain ⟨own, b', hb', -⟩ := h n b bs hn
  exact ⟨own, b', hb'⟩

theorem Loose.under {ts : List Token} (h : Loose ts) : Under ts := by
  intro n b bs hn
  obtain ⟨b', hb'⟩ := h n b bs hn
  exact ⟨[], b', hb'⟩

theorem Inside.nil : Inside [] := fun _ b _ hn => ⟨[], b, hn, fun _ => rfl⟩

theorem Loose.nil : Loose [] := fun _ b _ hn => ⟨b, hn⟩

theorem Loose.append {ts us : List Token} (h : Loose ts) (h' : Loose us) : Loose (ts ++ us) := by
  intro n b bs hn
  obtain ⟨b', hb'⟩ := h n b bs hn
  rw [Nesting.reads_append]
  exact h' _ b' bs hb'

theorem Loose.append_under {ts us : List Token} (h : Loose ts) (h' : Under us) : Under (ts ++ us) := by
  intro n b bs hn
  obtain ⟨b', hb'⟩ := h n b bs hn
  rw [Nesting.reads_append]
  exact h' _ b' bs hb'

theorem Loose.newlines {nl : List Token} (h : Grammar.Newlines nl) : Loose nl := by
  intro n b bs hn
  rw [Nesting.reads_newlines h]
  exact ⟨b, hn⟩

/-- Tokens that leave all brackets as they are. -/
theorem Level.of_brackets_eq {ts : List Token} (h : ∀ n : Nesting, (n.reads ts).brackets = n.brackets) : Level ts :=
  ⟨fun n b _ hn => ⟨b, (h n).trans hn⟩, fun n _ => h n⟩

/-- A mark that is no bracket, such as a comma. -/
theorem Level.mark {t : Token} {m : Mark} (ht : t.kind = .mark m) (hopen : ∀ n : Nesting, n.opened? m = none)
    (hclose : Nesting.isClosing m = false) : Level [t] :=
  .of_brackets_eq fun _ => Nesting.brackets_read_mark ht hopen hclose

theorem Loose.comma {t : Token} (ht : t.kind = .mark .comma) : Loose [t] := (Level.mark ht (fun _ => rfl) rfl).loose

/-- A word, a number or another token that is neither a mark nor a newline. -/
theorem Level.token {t : Token} (ht : t.kind ≠ .newline) (hmark : ∀ m, t.kind ≠ .mark m) : Level [t] := by
  refine ⟨fun n b bs hn => ?_, fun n hn => ?_⟩
  · by_cases hstart : n.AtStart
    · exact ⟨b.note t, Nesting.brackets_read_start ht hmark hstart hn⟩
    · exact ⟨b, (Nesting.brackets_read_inner ht hmark hstart).trans hn⟩
  · by_cases hstart : n.AtStart
    · exact Nesting.brackets_read_plain ht hmark (hn.resolve_left fun hinner => hinner hstart)
    · exact Nesting.brackets_read_inner ht hmark hstart

/-- A token that starts no member, in front of what is level. -/
theorem Level.cons {t : Token} {ts : List Token} (h : Level [t]) (ht : t.kind ≠ .newline) (hk : t.kind ∉ starters)
    (h' : Level ts) : Level (t :: ts) := by
  refine ⟨h.loose.append h'.loose, fun n hn => ?_⟩
  calc ((n.read t).reads ts).brackets = (n.read t).brackets := h'.2 _ (.inl (Nesting.not_atStart_read ht hk))
    _ = n.brackets := h.2 n hn

theorem Inside.cons {t : Token} {ts : List Token} (h : Level [t]) (ht : t.kind ≠ .newline) (hk : t.kind ∉ starters)
    (h' : Inside ts) : Inside (t :: ts) := by
  intro n b bs hn
  obtain ⟨b₁, hb₁⟩ := h.loose n b bs hn
  obtain ⟨own, b₂, hb₂, hrest⟩ := h' _ b₁ bs hb₁
  refine ⟨own, b₂, hb₂, fun hstart => ?_⟩
  have hsame : b₁ :: bs = b :: bs := hb₁.symm.trans ((h.2 n (.inl hstart)).trans hn)
  rw [hrest (Nesting.not_atStart_read ht hk)]
  exact (List.cons.inj hsame).1

/-- What an opening bracket and the tokens after it leave, when these are broken off. -/
theorem Inside.opened {o : Token} {m : Mark} {ts : List Token} (ho : o.kind = .mark m)
    (hm : ∀ n : Nesting, ∃ enclosure, n.opened? m = some enclosure) (h : Under ts) : Inside (o :: ts) := by
  intro n b bs hn
  obtain ⟨enclosure, henclosure⟩ := hm n
  have hopen := Nesting.brackets_read_open ho henclosure
  rw [hn] at hopen
  obtain ⟨own, b', hb'⟩ := h _ _ _ hopen
  refine ⟨own ++ [b'], b, ?_, fun _ => rfl⟩
  rw [Nesting.reads_cons, hb', List.append_assoc]
  rfl

/-- What stands between brackets is gone when they are closed. -/
theorem Level.bracketed {o c : Token} {m m' : Mark} {ts : List Token} (ho : o.kind = .mark m)
    (hm : ∀ n : Nesting, ∃ enclosure, n.opened? m = some enclosure) (h : Loose ts) (hc : c.kind = .mark m')
    (hm' : Nesting.isClosing m' = true) : Level (o :: (ts ++ [c])) := by
  apply Level.of_brackets_eq
  intro n
  obtain ⟨enclosure, henclosure⟩ := hm n
  obtain ⟨b', hb'⟩ := h _ _ _ (Nesting.brackets_read_open ho henclosure)
  rw [Nesting.reads_cons, Nesting.reads_append, Nesting.reads_cons, Nesting.reads_nil,
    Nesting.brackets_read_close hc hm', hb']
  rfl

namespace Grammar

theorem IsName.ne_newline {t : Token} (h : IsName t) : t.kind ≠ .newline := by
  rcases h with h | ⟨k, h⟩ <;> simp [h]

theorem IsName.ne_mark {t : Token} (h : IsName t) (m : Mark) : t.kind ≠ .mark m := by
  rcases h with h | ⟨k, h⟩ <;> simp [h]

theorem Key.ne_newline {t : Token} {key : String} (h : Key t key) : t.kind ≠ .newline := by
  cases h with
  | name h => exact h.ne_newline
  | string h => simp [h]

theorem Key.ne_mark {t : Token} {key : String} (h : Key t key) (m : Mark) : t.kind ≠ .mark m := by
  cases h with
  | name h => exact h.ne_mark m
  | string h => simp [h]

theorem not_starter {t : Token} (hmark : ∀ m, t.kind ≠ .mark m) : t.kind ∉ starters := by
  intro h
  simp only [starters, List.mem_cons, List.not_mem_nil, or_false] at h
  rcases h with h | h | h | h <;> exact hmark _ h

theorem level_of_assign {t : Token} (h : t.kind = .mark .assign) : Level [t] := .mark h (fun _ => rfl) rfl

theorem level_of_separator {t : Token} (h : t.kind = .mark .colon ∨ t.kind = .mark .assign) : Level [t] := by
  rcases h with h | h
  · exact .mark h (fun _ => rfl) rfl
  · exact level_of_assign h

theorem separator_inner {t : Token} (h : t.kind = .mark .colon ∨ t.kind = .mark .assign) :
    t.kind ≠ .newline ∧ t.kind ∉ starters := by
  rcases h with h | h
  · rw [h]
    decide
  · rw [h]
    decide

theorem Atom.ne_newline {t : Token} {e : Expr} (h : Atom t e) : t.kind ≠ .newline := by
  cases h <;> simp [*]

theorem Atom.ne_mark {t : Token} {e : Expr} (h : Atom t e) (m : Mark) : t.kind ≠ .mark m := by
  cases h <;> simp [*]

theorem loose_of_members {α : Type} {M : Phrases α} (h : ∀ ts x, M ts x → Loose ts) {ts : List Token} {xs : List α}
    (hxs : Members M ts xs) : Loose ts := by
  induction hxs with
  | nil => exact .nil
  | last hx hnl => exact (h _ _ hx).append (.newlines hnl)
  | cons hx hnl hcomma hnl' _ ih =>
    have hrest := (Loose.comma hcomma).append ((Loose.newlines hnl').append ih)
    exact (h _ _ hx).append ((Loose.newlines hnl).append hrest)

theorem level_of_bracketed {α : Type} {o c : Mark} {L : Phrases α} (h : ∀ ts x, L ts x → Loose ts)
    (ho : ∀ n : Nesting, ∃ enclosure, n.opened? o = some enclosure) (hc : Nesting.isClosing c = true)
    {ts : List Token} {x : α} (hx : Bracketed o c L ts x) : Level ts := by
  obtain ⟨hopen, hnl, hx, hclose⟩ := hx
  rw [← List.append_assoc]
  exact .bracketed hopen ho ((Loose.newlines hnl).append (h _ _ hx)) hclose hc

section Values

variable {E : Phrases Expr} (h : ∀ ts e, E ts e → Level ts)
include h

theorem loose_of_namedArgument {ts : List Token} {a : Argument} (ha : NamedArgument E ts a) : Loose ts := by
  obtain ⟨hname, hassign, he⟩ := ha
  have hfront := (Level.token hname.ne_newline hname.ne_mark).loose
  exact hfront.append ((level_of_assign hassign).loose.append (h _ _ he).loose)

theorem loose_of_arguments {ts : List Token} {args : List Argument} (hargs : Arguments E ts args) : Loose ts := by
  cases hargs with
  | named hargs _ => exact loose_of_members (fun _ _ => loose_of_namedArgument h) hargs
  | sole he hnl => exact (h _ _ he).loose.append (.newlines hnl)
  | soleComma he hnl hcomma hnl' =>
    exact (h _ _ he).loose.append ((Loose.newlines hnl).append ((Loose.comma hcomma).append (.newlines hnl')))

theorem loose_of_entry {ts : List Token} {a : String × Expr} (ha : ObjectEntry E ts a) : Loose ts := by
  obtain ⟨hkey, hsep, he⟩ := ha
  have hfront := (Level.token hkey.ne_newline hkey.ne_mark).loose
  exact hfront.append ((level_of_separator hsep).loose.append (h _ _ he).loose)

theorem level_of_layer {ts : List Token} {e : Expr} (he : Layer E ts e) : Level ts := by
  cases he with
  | atom ht => exact .token ht.ne_newline ht.ne_mark
  | call ht hargs =>
    have hname := ht.isName
    refine .cons (.token hname.ne_newline hname.ne_mark) hname.ne_newline (not_starter hname.ne_mark) ?_
    exact level_of_bracketed (fun _ _ => loose_of_arguments h) (fun _ => ⟨_, rfl⟩) rfl hargs
  | list hitems =>
    exact level_of_bracketed (fun _ _ => loose_of_members fun _ _ he => (h _ _ he).loose) (fun _ => ⟨_, rfl⟩) rfl hitems
  | object hentries =>
    refine level_of_bracketed (fun _ _ hx => ?_) (fun _ => ⟨_, rfl⟩) rfl hentries
    obtain ⟨hx, -⟩ := hx
    exact loose_of_members (fun _ _ => loose_of_entry h) hx

end Values

theorem level_of_value {ts : List Token} {e : Expr} (h : Value ts e) : Level ts :=
  Value.fold (E := fun ts _ => Level ts) (fun _ _ => level_of_layer fun _ _ hts => hts) h

end Grammar

end ChainCompiler
