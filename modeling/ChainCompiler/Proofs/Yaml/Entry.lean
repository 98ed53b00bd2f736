import ChainCompiler.Project
import ChainCompiler.Proofs.Yaml.Order

/-! The first entry of a block mapping, from its tokens to the setting that it gives. The value of the entry is a scalar
whose token comes right after its properties, or there is no value. -/

namespace ChainCompiler.Yaml

namespace Read

variable {α β : Type} {r r' : Reader}

/-- One step of a reader that does not fail. -/
theorem of_bind {x : Read α} {f : α → Read β} {y : β × Reader} (h : (x >>= f) r = some y) :
    ∃ a r', x r = some (a, r') ∧ f a r' = some y := by
  obtain ⟨⟨a, r'⟩, hx, h⟩ := Option.bind_eq_some_iff.1 h
  exact ⟨a, r', hx, h⟩

theorem of_peek {t : Token} (h : peek r = some (t, r')) : r = r' ∧ ∃ ts, r.tokens = t :: ts := by
  obtain ⟨tokens, names, starts, anchors, handles⟩ := r
  cases tokens with
  | nil => cases h
  | cons t ts =>
    cases h
    exact ⟨rfl, ts, rfl⟩

theorem of_guard {c : Prop} [Decidable c] {u : Unit} (h : (guard c : Read Unit) r = some (u, r')) : r = r' := by
  unfold guard at h
  split at h
  · cases h
    rfl
  · cases h

/-- What is read off are properties of a node. -/
def Skips (r r' : Reader) : Prop := ∃ props, r.tokens = props ++ r'.tokens ∧ ∀ t ∈ props, t.isProperty = true

theorem Skips.refl (r : Reader) : Skips r r := ⟨[], rfl, by simp⟩

theorem Skips.one {t : Token} {ts : List Token} (h : r.tokens = t :: ts) (ht : t.isProperty = true)
    (hr : r'.tokens = r.tokens.drop 1) : Skips r r' :=
  ⟨[t], by rw [hr, h]; rfl, by simpa using ht⟩

theorem Skips.trans {r'' : Reader} (h : Skips r r') (h' : Skips r' r'') : Skips r r'' := by
  obtain ⟨props, htokens, hprops⟩ := h
  obtain ⟨props', htokens', hprops'⟩ := h'
  refine ⟨props ++ props', by rw [htokens, htokens', List.append_assoc], ?_⟩
  rw [List.forall_mem_append]
  exact ⟨hprops, hprops'⟩

theorem skips_of_anchor? {a : Option Anchor} (h : anchor? r = some (a, r')) : Skips r r' := by
  obtain ⟨t, _, ht, h⟩ := of_bind h
  obtain ⟨rfl, ts, hts⟩ := of_peek ht
  split at h
  · next name =>
    cases h
    exact .one hts rfl rfl
  · cases h
    exact .refl _

theorem skips_of_tag? {b : Bool} (h : tag? r = some (b, r')) : Skips r r' := by
  obtain ⟨t, _, ht, h⟩ := of_bind h
  obtain ⟨rfl, ts, hts⟩ := of_peek ht
  split at h
  · next handle =>
    obtain ⟨_, _, hget, h⟩ := of_bind h
    cases hget
    obtain ⟨_, _, hguard, h⟩ := of_bind h
    obtain rfl := of_guard hguard
    cases h
    exact .one hts rfl rfl
  · cases h
    exact .refl _

theorem skips_of_properties {x : Option Anchor × Bool} (h : properties r = some (x, r')) : Skips r r' := by
  obtain ⟨a, r₁, ha, h⟩ := of_bind h
  refine (skips_of_anchor? ha).trans ?_
  cases a with
  | some a =>
    obtain ⟨b, r₂, hb, h⟩ := of_bind h
    cases h
    exact skips_of_tag? hb
  | none =>
    obtain ⟨b, r₂, hb, h⟩ := of_bind h
    refine (skips_of_tag? hb).trans ?_
    cases b with
    | true =>
      obtain ⟨a, r₃, ha, h⟩ := of_bind h
      cases h
      exact skips_of_anchor? ha
    | false =>
      cases h
      exact .refl _

variable {d : Document} {node : Node} {text : String}

/-- The contents of a node with a text are empty or the next token. -/
theorem text_of_content {n : Nat} {inner : Bool → Bool → Read Node} {block indentless hasProperties : Bool}
    (h : content n inner block indentless hasProperties r = some (node, r')) (htext : d.text? node = some text) :
    text = "" ∨ ∃ b more, r.tokens = .scalar text b :: more := by
  obtain ⟨t, _, ht, h⟩ := of_bind h
  obtain ⟨rfl, ts, hts⟩ := of_peek ht
  -- a node that is only properties has no text
  have habsent (h : (if hasProperties then pure absent else failure : Read Node) r = some (node, r')) : text = "" := by
    cases hasProperties with
    | false => cases h
    | true =>
      cases h
      cases htext
      rfl
  have hnested {γ : Type} {x : Read γ} {f : γ → Node} {r₁ : Reader} (hf : ∀ a, d.text? (f a) = none)
      (h : (x >>= fun a => pure (f a)) r₁ = some (node, r')) : False := by
    obtain ⟨a, _, -, h⟩ := of_bind h
    cases h
    rw [hf] at htext
    cases htext
  split at h
  · cases h
    cases htext
    exact .inr ⟨_, ts, hts⟩
  · obtain ⟨_, _, -, h⟩ := of_bind h
    exact (hnested (fun _ => rfl) h).elim
  · obtain ⟨_, _, -, h⟩ := of_bind h
    exact (hnested (fun _ => rfl) h).elim
  · split at h
    · exact (hnested (fun _ => rfl) h).elim
    · exact .inl (habsent h)
  · split at h
    · obtain ⟨_, _, -, h⟩ := of_bind h
      exact (hnested (fun _ => rfl) h).elim
    · exact .inl (habsent h)
  · split at h
    · obtain ⟨_, _, -, h⟩ := of_bind h
      exact (hnested (fun _ => rfl) h).elim
    · exact .inl (habsent h)
  · exact .inl (habsent h)

/-- The text of a node is empty or comes right after the properties. No alias has a meaning yet. -/
theorem text_of_nodeTo {n : Nat} {block indentless : Bool} (hnames : r.names = [])
    (h : nodeTo n block indentless r = some (node, r')) (htext : d.text? node = some text) :
    text = "" ∨ ∃ props b more, r.tokens = props ++ .scalar text b :: more ∧ ∀ t ∈ props, t.isProperty = true := by
  cases n with
  | zero => cases h
  | succ n =>
    obtain ⟨t, _, ht, h⟩ := of_bind h
    obtain ⟨rfl, ts, hts⟩ := of_peek ht
    split at h
    · obtain ⟨_, _, hskip, h⟩ := of_bind h
      cases hskip
      obtain ⟨_, _, hget, h⟩ := of_bind h
      cases hget
      rw [hnames] at h
      cases h
    · obtain ⟨x, r₁, hx, h⟩ := of_bind h
      obtain ⟨node', r₂, hcontent, h⟩ := of_bind h
      obtain ⟨props, htokens, hprops⟩ := skips_of_properties hx
      have hnode : node' = node := by
        obtain ⟨_ | a, any⟩ := x
        · cases h
          rfl
        · obtain ⟨_, _, -, h⟩ := of_bind h
          cases h
          rfl
      rw [hnode] at hcontent
      rcases text_of_content hcontent htext with hempty | ⟨b, more, hmore⟩
      · exact .inl hempty
      · exact .inr ⟨props, b, more, by rw [htokens, hmore], hprops⟩

/-- The first entry of the mapping that a text is. -/
theorem entry_of_stream {key : String} {b : Bool} {rest : List Token} {handles : List String}
    (h : stream ⟨.blockMapping :: .key :: .scalar key b :: .value :: rest, [], [], [], handles⟩ = some (node, r')) :
    ∃ value entries r₁, node = .mapping ((.scalar key b, value) :: entries) ∧
      nodeUnless [.key, .value, .blockEnd] (nodeTo (rest.length + 4) true true) ⟨rest, [], [], [], handles⟩ =
        some (value, r₁) := by
  obtain ⟨_, _, hat, h⟩ := of_bind h
  cases hat
  obtain ⟨root, r₁, hroot, h⟩ := of_bind h
  obtain ⟨_, _, -, h⟩ := of_bind h
  obtain ⟨_, _, -, h⟩ := of_bind h
  obtain ⟨_, _, -, h⟩ := of_bind h
  obtain ⟨_, _, -, h⟩ := of_bind h
  cases h
  -- the root is a block mapping without properties
  have hnode : nodeTo (rest.length + 5) true false
      ⟨.blockMapping :: .key :: .scalar key b :: .value :: rest, [], [], [], handles⟩ = some (node, r₁) := hroot
  obtain ⟨_, _, hpeek, hnode⟩ := of_bind hnode
  cases hpeek
  obtain ⟨_, _, hproperties, hnode⟩ := of_bind hnode
  cases hproperties
  obtain ⟨_, r₂, hcontent, hnode⟩ := of_bind hnode
  cases hnode
  obtain ⟨entries, _, hentries, hcontent⟩ : ∃ entries r₂,
      blockEntries (nodeTo (rest.length + 4) true true) (rest.length + 5)
        ⟨.key :: .scalar key b :: .value :: rest, [], [], [], handles⟩ = some (entries, r₂) ∧
      some (Node.mapping entries, r₂) = some (node, r₁) := of_bind hcontent
  cases hcontent
  -- its first key is a scalar, and then comes the value
  obtain ⟨value, r₂, hvalue, hentries⟩ : ∃ value r₂,
      nodeUnless [.key, .value, .blockEnd] (nodeTo (rest.length + 4) true true) ⟨rest, [], [], [], handles⟩ =
        some (value, r₂) ∧
      (do return (.scalar key b, value) :: (← blockEntries (nodeTo (rest.length + 4) true true) (rest.length + 4)) :
        Read (List (Node × Node))) r₂ = some (entries, r₁) := of_bind hentries
  obtain ⟨more, _, -, hentries⟩ := of_bind hentries
  cases hentries
  exact ⟨value, more, r₂, rfl, hvalue⟩

end Read

/-- What an entry gives to a setting of its name. -/
theorem eq_of_unique? {d : Document} {key : String} {b : Bool} {value node : Node} {entries : List (Node × Node)}
    {settings : List (String × Node)}
    (hsettings : d.entries? (.mapping ((.scalar key b, value) :: entries)) = some settings)
    (h : unique? settings key = some (some node)) : node = value := by
  unfold Document.entries? at hsettings
  simp only [Document.resolve, List.mapM_cons] at hsettings
  obtain ⟨_, hfirst, hsettings⟩ := Option.bind_eq_some_iff.1 hsettings
  cases hfirst
  obtain ⟨more, -, hsettings⟩ := Option.bind_eq_some_iff.1 hsettings
  cases hsettings
  unfold unique? at h
  rw [List.filter_cons_of_pos (by simp)] at h
  cases hmore : more.filter (·.1 == key) with
  | nil =>
    rw [hmore] at h
    cases h
    rfl
  | cons e es =>
    rw [hmore] at h
    cases h

/-- The name of a project is the text of the entry for it. -/
theorem text?_of_ofDocument? {d : Document} {project : Project} (h : Project.ofDocument? d = some project) :
    ∃ settings node, d.entries? d.root = some settings ∧ unique? settings "name" = some (some node) ∧
      d.text? node = some project.name := by
  obtain ⟨settings, hsettings, h⟩ := Option.bind_eq_some_iff.1 h
  obtain ⟨entry, hentry, h⟩ := Option.bind_eq_some_iff.1 h
  obtain ⟨name, hname, h⟩ := Option.bind_eq_some_iff.1 h
  obtain ⟨version, -, h⟩ := Option.bind_eq_some_iff.1 h
  obtain ⟨sources, -, h⟩ := Option.bind_eq_some_iff.1 h
  obtain ⟨output, -, h⟩ := Option.bind_eq_some_iff.1 h
  obtain ⟨target, -, h⟩ := Option.bind_eq_some_iff.1 h
  obtain ⟨node, hnode, htext⟩ := Option.bind_eq_some_iff.1 hname
  have hproject : project.name = name := by
    cases target with
    | none =>
      cases h
      rfl
    | some target =>
      obtain ⟨_, -, h⟩ := Option.bind_eq_some_iff.1 h
      cases h
      rfl
  rw [hnode] at hentry
  exact ⟨settings, node, hsettings, hentry, by rw [htext, hproject]⟩

/-- If the first entry is that of the name, the name of a project is the scalar after its properties. -/
theorem exists_scalar_of_ofDocument? {project : Project} {b : Bool} {rest : List Token} {handles : List String}
    {root : Node} {r : Reader}
    (hroot : Read.stream ⟨.blockMapping :: .key :: .scalar "name" b :: .value :: rest, [], [], [], handles⟩ =
      some (root, r))
    (h : Project.ofDocument? ⟨root, r.anchors⟩ = some project) :
    project.name = "" ∨
      ∃ props b more, rest = props ++ .scalar project.name b :: more ∧ ∀ t ∈ props, t.isProperty = true := by
  obtain ⟨value, entries, r₁, rfl, hvalue⟩ := Read.entry_of_stream hroot
  obtain ⟨settings, node, hsettings, hunique, htext⟩ := text?_of_ofDocument? h
  obtain rfl := eq_of_unique? hsettings hunique
  obtain ⟨isAbsent, r₂, hfollower, hvalue⟩ := Read.of_bind hvalue
  obtain ⟨t, r₃, hpeek, hfollower⟩ := Read.of_bind hfollower
  obtain ⟨rfl, -⟩ := Read.of_peek hpeek
  cases hfollower
  split at hvalue
  · cases hvalue
    exact .inl (Option.some.inj htext).symm
  · exact Read.text_of_nodeTo rfl hvalue htext

end ChainCompiler.Yaml
