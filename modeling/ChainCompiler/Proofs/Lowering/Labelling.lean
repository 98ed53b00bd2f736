import ChainCompiler.Proofs.Lowering.Walk
import ChainCompiler.Proofs.Script.Instances
import Mathlib.Data.List.Nodup
import Mathlib.Data.List.TakeWhile

/-! The labels of the branches of routers. A label is the name of its statement, the number of its router and its
branch, put together without a separator that names could not have; read from the end it gives the number and the branch
back. Each router draws its number from one counter, also in the middle of another router, so that lowering gives no
number and branch twice. -/

namespace ChainCompiler

theorem isDigit_of_mem_repr {n : Nat} {c : Char} (h : c ∈ n.repr.toList) : c.isDigit = true := by
  rw [Nat.toList_repr] at h
  exact Nat.isDigit_of_mem_toDigits (b := 10) (by decide) (by decide) h

theorem repr_inj {m n : Nat} (h : m.repr.toList = n.repr.toList) : m = n := by
  rw [Nat.toList_repr, Nat.toList_repr] at h
  simpa using congrArg (Nat.ofDigitChars 10 · 0) h

/-- The digits at the end of a text are the longest run of them. -/
theorem append_digits_inj {as bs ds es : List Char} {c d : Char} (hc : c.isDigit = false) (hd : d.isDigit = false)
    (hds : ∀ x ∈ ds, x.isDigit = true) (hes : ∀ x ∈ es, x.isDigit = true) (h : as ++ c :: ds = bs ++ d :: es) :
    as = bs ∧ c = d ∧ ds = es := by
  have hreverse : ds.reverse ++ c :: as.reverse = es.reverse ++ d :: bs.reverse := by
    simpa using congrArg List.reverse h
  have hrun := congrArg (List.takeWhile Char.isDigit) hreverse
  rw [List.takeWhile_append_of_pos (by simpa using hds), List.takeWhile_append_of_pos (by simpa using hes),
    List.takeWhile_cons_of_neg (by simp [hc]), List.takeWhile_cons_of_neg (by simp [hd])] at hrun
  have hdigits : ds = es := by simpa using hrun
  subst hdigits
  have hrest := List.append_cancel_left hreverse
  rw [List.cons.injEq, List.reverse_inj] at hrest
  exact ⟨hrest.2, hrest.1, rfl⟩

/-- A branch of a router: the place of a case, or none for the default. -/
abbrev Branch := Option Nat

def Branch.label (router : String) : Branch → String
  | some index => router ++ "_case_" ++ index.repr
  | none => router ++ "_default"

/-- The label of a branch of the router with a number, in whatever statement. -/
def IsLabel (number : Nat) (b : Branch) (text : String) : Prop :=
  ∃ owner : String, text = b.label (owner ++ "_r" ++ number.repr)

/-- Router labels can be read from their end. -/
theorem number_inj {owner owner' : String} {n n' : Nat}
    (h : (owner ++ "_r" ++ n.repr).toList = (owner' ++ "_r" ++ n'.repr).toList) : n = n' := by
  have hr : ∀ (o : String) (k : Nat), (o ++ "_r" ++ k.repr).toList = (o.toList ++ ['_']) ++ 'r' :: k.repr.toList := by
    simp
  rw [hr, hr] at h
  obtain ⟨-, -, hdigits⟩ := append_digits_inj (by decide) (by decide) (fun _ => isDigit_of_mem_repr)
    (fun _ => isDigit_of_mem_repr) h
  exact repr_inj hdigits

theorem Branch.label_inj {router router' : String} {b b' : Branch} (h : b.label router = b'.label router') :
    router.toList = router'.toList ∧ b = b' := by
  -- What stands before the digits at the end, the last character of that, and the digits.
  have hcase : ∀ (r : String) (i : Nat),
      (label r (some i)).toList = (r.toList ++ "_case".toList) ++ '_' :: i.repr.toList := by
    simp [label]
  have hdefault : ∀ r : String, (label r none).toList = (r.toList ++ "_defaul".toList) ++ 't' :: [] := by
    simp [label]
  have hlists := congrArg String.toList h
  rcases b with _ | i <;> rcases b' with _ | i'
  · rw [hdefault, hdefault] at hlists
    obtain ⟨hfront, -, -⟩ := append_digits_inj (by decide) (by decide) (by simp) (by simp) hlists
    exact ⟨List.append_cancel_right hfront, rfl⟩
  · rw [hdefault, hcase] at hlists
    obtain ⟨-, hlast, -⟩ := append_digits_inj (by decide) (by decide) (by simp) (fun _ => isDigit_of_mem_repr) hlists
    exact absurd hlast (by decide)
  · rw [hdefault, hcase] at hlists
    obtain ⟨-, hlast, -⟩ := append_digits_inj (by decide) (by decide) (fun _ => isDigit_of_mem_repr) (by simp) hlists
    exact absurd hlast (by decide)
  · rw [hcase, hcase] at hlists
    obtain ⟨hfront, -, hdigits⟩ := append_digits_inj (by decide) (by decide) (fun _ => isDigit_of_mem_repr)
      (fun _ => isDigit_of_mem_repr) hlists
    exact ⟨List.append_cancel_right hfront, congrArg some (repr_inj hdigits)⟩

/-- A label tells the number of its router and which branch it is of, whatever the names of the owners. -/
theorem IsLabel.unique {n n' : Nat} {b b' : Branch} {text : String} (h : IsLabel n b text) (h' : IsLabel n' b' text) :
    n = n' ∧ b = b' := by
  obtain ⟨owner, rfl⟩ := h
  obtain ⟨owner', htext⟩ := h'
  obtain ⟨hrouter, hbranch⟩ := Branch.label_inj htext
  exact ⟨number_inj hrouter, hbranch⟩

open Script (instances)

/-- All chains in the expressions are labelled, and no two of them alike. Their labels belong to routers that were
counted while `m` routers became `n`, or are among those that are still to be given for routers counted before. -/
structure Labels (own : Nat → Branch → Prop) (m : Nat) (es : List Script.Expr) (n : Nat) : Prop where
  le : m ≤ n
  old : ∀ i b, own i b → i ≤ m
  nodup : (instances "Chain" es).Nodup
  label : ∀ args ∈ instances "Chain" es, ∃ text i b, args = [.str text] ∧ IsLabel i b text ∧ (own i b ∨ m < i ∧ i ≤ n)

/-- All labels belong to routers counted meanwhile. -/
abbrev Fresh (m : Nat) (es : List Script.Expr) (n : Nat) : Prop := Labels (fun _ _ => False) m es n

namespace Labels

variable {own own' : Nat → Branch → Prop} {m n k : Nat} {es fs : List Script.Expr}

theorem of_sublist (h : Labels own m es n) (hfs : (instances "Chain" fs).Sublist (instances "Chain" es)) :
    Labels own m fs n :=
  ⟨h.le, h.old, h.nodup.sublist hfs, fun args hargs => h.label args (hfs.subset hargs)⟩

theorem of_eq (h : Labels own m es n) (hfs : instances "Chain" fs = instances "Chain" es) : Labels own m fs n :=
  h.of_sublist (hfs ▸ .refl _)

theorem mono (h : Labels own m es n) (hold : ∀ i b, own' i b → i ≤ m) (hown : ∀ i b, own i b → own' i b) :
    Labels own' m es n := by
  refine ⟨h.le, hold, h.nodup, fun args hargs => ?_⟩
  obtain ⟨text, i, b, rfl, hlabel, hnumber⟩ := h.label args hargs
  exact ⟨text, i, b, rfl, hlabel, hnumber.imp_left (hown i b)⟩

/-- Chains emitted one after the other have different labels if the labels to be given are. -/
theorem append (h : Labels own m es n) (h' : Labels own' n fs k) (hold : ∀ i b, own' i b → i ≤ m)
    (hdisjoint : ∀ i b, own i b → ¬own' i b) : Labels (fun i b => own i b ∨ own' i b) m (es ++ fs) k := by
  have hle := h.le
  have hle' := h'.le
  refine ⟨hle.trans hle', fun i b hown => hown.elim (h.old i b) (hold i b), ?_, fun args hargs => ?_⟩
  · rw [Script.instances_append]
    refine List.nodup_append.2 ⟨h.nodup, h'.nodup, fun args hargs args' hargs' heq => ?_⟩
    obtain ⟨text, i, b, rfl, hlabel, hnumber⟩ := h.label args hargs
    obtain ⟨text', i', b', rfl, hlabel', hnumber'⟩ := h'.label args' hargs'
    cases heq
    obtain ⟨rfl, rfl⟩ := hlabel.unique hlabel'
    rcases hnumber with hown | hnumber <;> rcases hnumber' with hown' | hnumber'
    · exact hdisjoint i b hown hown'
    · have := h.old i b hown
      omega
    · have := hold i b hown'
      omega
    · omega
  · rw [Script.instances_append, List.mem_append] at hargs
    rcases hargs with hargs | hargs
    · obtain ⟨text, i, b, rfl, hlabel, hnumber⟩ := h.label args hargs
      exact ⟨text, i, b, rfl, hlabel, hnumber.imp .inl fun hi => by omega⟩
    · obtain ⟨text, i, b, rfl, hlabel, hnumber⟩ := h'.label args hargs
      exact ⟨text, i, b, rfl, hlabel, hnumber.imp .inr fun hi => by omega⟩

/-- What is emitted next gives none of the labels that are still to be given. -/
theorem before (h : Labels own m es n) (h' : Fresh n fs k) : Labels own m (es ++ fs) k :=
  (h.append h' (by simp) (by simp)).mono h.old (by simp)

/-- What was emitted before gave none of the labels that are still to be given. -/
theorem after (h : Labels own n fs k) (h' : Fresh m es n) (hold : ∀ i b, own i b → i ≤ m) :
    Labels own m (es ++ fs) k :=
  (h'.append h hold (by simp)).mono hold (by simp)

/-- The labels that were to be given for a router that is counted now. -/
theorem close (h : Labels own (m + 1) es n) (hown : ∀ i b, own i b → i = m + 1) : Fresh m es n := by
  have hle := h.le
  refine ⟨by omega, by simp, h.nodup, fun args hargs => ?_⟩
  obtain ⟨text, i, b, rfl, hlabel, hnumber⟩ := h.label args hargs
  refine ⟨text, i, b, rfl, hlabel, .inr ?_⟩
  rcases hnumber with hi | hi
  · have := hown i b hi
    omega
  · omega

theorem array (h : Labels own m es n) : Labels own m [.array es] n :=
  h.of_eq (by simp [Script.instances_cons, Script.Expr.instance?, Script.Expr.parts])

theorem object {fields : List (String × Script.Expr)} (h : Labels own m (fields.map Prod.snd) n) :
    Labels own m [.object fields] n :=
  h.of_eq (by simp [Script.instances_cons, Script.Expr.instance?, Script.Expr.parts])

theorem new {c : String} (hc : c ≠ "Chain") (h : Labels own m es n) : Labels own m [.new c es] n :=
  h.of_eq (by simp [Script.instances_cons, Script.Expr.instance?, Script.Expr.parts, hc])

theorem method {e : Script.Expr} {name : String} (h : Labels own m (e :: es) n) : Labels own m [e.method name es] n :=
  h.of_eq (Script.instances_method e name es)

/-- A branch has a label of its router. -/
theorem chain {i : Nat} {b : Branch} {text : String} (h : IsLabel i b text) (hi : i ≤ m) :
    Labels (fun j d => j = i ∧ d = b) m [.new "Chain" [.str text]] m := by
  have hchains : instances "Chain" [.new "Chain" [.str text]] = [[.str text]] := by
    simp [Script.instances_cons, Script.Expr.instance?, Script.Expr.parts]
  refine ⟨le_rfl, fun j d hj => hj.1 ▸ hi, ?_, fun args hargs => ?_⟩
  · simp [hchains]
  · rw [hchains, List.mem_singleton] at hargs
    exact ⟨text, i, b, hargs, h, .inl ⟨rfl, rfl⟩⟩

end Labels

namespace Fresh

variable {m n k : Nat} {e : Script.Expr} {es fs : List Script.Expr}

theorem of_nil (h : instances "Chain" es = []) : Fresh m es m := ⟨le_rfl, by simp, by simp [h], by simp [h]⟩

theorem nil : Fresh m [] m := of_nil rfl

theorem append (h : Fresh m es n) (h' : Fresh n fs k) : Fresh m (es ++ fs) k := Labels.before h h'

theorem cons (h : Fresh m [e] n) (h' : Fresh n es k) : Fresh m (e :: es) k := h.append h'

end Fresh

theorem Scope.routers_register (s : Scope) (tool : String) : (s.register tool).routers = s.routers := by
  unfold register
  dsimp only
  split <;> split <;> rfl

/-- Between the two scopes the expressions are emitted with fresh labels. -/
def Labelled (s : Scope) (es : List Script.Expr) (t : Scope) : Prop := Fresh s.routers es t.routers

namespace Labels

variable {s t : Scope} {i : Nat}

/-- A branch gives its label, and its nodes give fresh ones. -/
theorem branch {b : Branch} {text : String} {nodes : List Script.Expr} (htext : IsLabel i b text) (hi : i ≤ s.routers)
    (hnodes : Labelled (s.note "Chain") nodes t) :
    Labels (fun j d => j = i ∧ d = b) s.routers [chained text nodes] t.routers := by
  have hchained : ∀ e : Script.Expr, instances "Chain" [nodes.foldl (fun e n => e.method "addNode" [n]) e] =
      instances "Chain" (e :: nodes) := by
    clear hnodes
    induction nodes with
    | nil => exact fun _ => rfl
    | cons node nodes ih =>
      intro e
      rw [List.foldl_cons, ih]
      change instances "Chain" ([_] ++ nodes) = instances "Chain" ([e, node] ++ nodes)
      rw [Script.instances_append, Script.instances_append, Script.instances_method]
  exact ((chain htext hi).before hnodes).of_eq (hchained _)

/-- The routes of a router give the labels of its cases from one of them on. -/
theorem routes {label : String} (hlabel : ∀ b : Branch, IsLabel i b (b.label label)) {index : Nat}
    {rs : List Script.Expr} (h : Routes Labelled label index s rs t) (hi : i ≤ s.routers) :
    Labels (fun j d => j = i ∧ ∃ k, index ≤ k ∧ d = some k) s.routers rs t.routers := by
  induction h with
  | nil => exact Fresh.nil.mono (by grind) (by simp)
  | @cons index s t u w c nodes rs hcondition haction _ ih =>
    have hit : i ≤ t.routers := hi.trans hcondition.le
    have hbranch := branch (hlabel (some index)) hit haction
    have hroute : Labels _ _ [.object [("when", _), ("then", _)]] _ := (hbranch.after hcondition (by grind)).object
    exact (hroute.append (ih (hit.trans hbranch.le)) (by grind) (by grind)).mono (by grind) (by grind)

/-- A router gives the labels of its own number, which it draws behind its configuration. -/
theorem router {u w : Scope} {config fallback : Script.Expr} {rs : List Script.Expr}
    (hconfig : Labelled (s.note "Router") [config] t) (hroutes : Routes Labelled t.count.label 0 t.count rs u)
    (hfallback : Fallback Labelled t.count.label u fallback w) :
    Labelled s [.new "Router" [config, .array rs, fallback]] w := by
  have hlabel : ∀ b : Branch, IsLabel t.count.routers b (b.label t.count.label) := fun _ => ⟨t.owner, rfl⟩
  have hrs := routes hlabel hroutes le_rfl
  cases hfallback with
  | none =>
    have hnull : Fresh u.routers [.null] u.routers := .of_nil rfl
    have hrest := (hrs.array.before hnull).close fun _ _ hown => hown.1
    exact (Fresh.cons hconfig hrest).new (by decide)
  | some haction =>
    have hdefault := branch (hlabel none) hrs.le haction
    have hrest := (hrs.array.append hdefault (by grind) (by grind)).close fun _ _ hown => hown.elim And.left And.left
    exact (Fresh.cons hconfig hrest).new (by decide)

end Labels

/-- Whatever lowering emits has fresh labels. -/
theorem Labelled.walk : Walk (fun _ => True) Labelled where
  silent _ _ hrouters := by
    rw [Labelled, hrouters]
    exact .nil
  append h h' := Fresh.append h h'
  name _ := .of_nil rfl
  str := .of_nil rfl
  number _ := .of_nil rfl
  bool := .of_nil rfl
  null := .of_nil rfl
  array h := Labels.array h
  object h := Labels.object h
  new _ hchain h := Labels.new hchain h
  router := Labels.router
  tool {s t e n} he _ := by
    have htool : Fresh t.routers [.ident n] (t.register n).routers := by
      rw [t.routers_register]
      exact .of_nil rfl
    exact Labels.method (Fresh.cons he htool)
  method _ _ he ha := Labels.method (Fresh.cons he ha)

/-- The expressions that a statement contributes, without the values of its constants as a whole, and with its memory
configuration. -/
def Lowered.inner (l : Lowered) : List Script.Expr :=
  Script.innerOf l.definitions ++ (l.chain.bind ChainEntry.memory).toList

theorem Contributes.labelled {name : String} {s t : Scope} {l : Lowered} (h : Contributes Labelled name s l t) :
    Labelled s l.inner t := by
  have hinner : ∀ (v : Script.Expr) (calls : List Script.Expr),
      Script.innerOf (.const name v :: calls.map .expr) = v.parts ++ calls := by
    intro v calls
    rw [Script.innerOf, List.flatMap_cons, List.flatMap_map]
    exact congrArg _ (List.flatMap_singleton' calls)
  unfold Lowered.inner
  cases h with
  | definition hcode =>
    rw [hinner]
    refine Fresh.append (Labels.of_sublist hcode ?_) .nil
    rw [Script.instances_append, Script.instances_cons]
    exact List.sublist_append_right _ _
  | chain hcalls hmemory =>
    -- The chain itself is the value of its constant; below it stands its name.
    rw [hinner]
    have hname : Fresh s.routers [.str name] s.routers := .of_nil rfl
    refine Fresh.append (hname.cons hcalls) ?_
    cases hmemory with
    | none => exact .nil
    | some hconfig => exact hconfig
  | @schema fields =>
    refine Fresh.append (Labels.of_sublist (Labelled.walk.schemaOf s fields) ?_) .nil
    exact Script.instances_innerOf_sublist [.const name (Component.schemaOf fields)]

/-- What a program contributes has fresh labels, statement after statement. -/
theorem Lower.program_labelling {p : Program} {s t : Scope} {ls : List Lowered}
    (hrun : (program p).run s = (.ok ls, t)) : Fresh s.routers (ls.flatMap Lowered.inner) t.routers :=
  program_walk Labelled.walk (fun hcontributes => hcontributes.labelled) (by simp) (by simp) hrun

end ChainCompiler
