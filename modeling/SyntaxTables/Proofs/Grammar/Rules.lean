import SyntaxTables.Proofs.Grammar.Names

/-!
# What rules become

The grammar of some rules is told from the rules as a whole: the terminals are the texts of all
terms, the non-terminals are the heads of all rules and behind them the other names that are used,
and each alternative is a production over these two lists. The reader has all of it only when the
last rule is read, while it numbers each term at once. So a reading step is described by what it
adds to the tables and by its result in terms of any lists that the tables grow to.
-/

namespace SyntaxTables

open Bnf

/-! ### What the rules say -/

namespace Bnf.Term

/-- The text of a terminal, unless it is empty. -/
def text? : Term → Option String
  | terminal text => if text.isEmpty then none else some text
  | nonterminal _ => none

def used? : Term → Option String
  | terminal _ => none
  | nonterminal name => some name

/-- The symbol of a term by its place in the lists of names; the empty terminal has none. -/
def symbolIn? (terminals nonterminals : List String) : Term → Option Symbol
  | terminal text => if text.isEmpty then none else some (.terminal (terminals.idxOf text))
  | nonterminal name => some (.nonterminal (nonterminals.idxOf name))

end Bnf.Term

def ruleTerms (rules : List Rule) : List Term := rules.flatMap fun r => r.alternatives.flatten

/-- The names that are used and that no rule defines, each once, in the order of first use. -/
def undefinedNames (rules : List Rule) : List String :=
  newNames (rules.map Rule.head) ((ruleTerms rules).filterMap Term.used?)

def undefinedReport (name : String) : Diagnostic := .error s!"undefined non-terminal <{name}>" none

def productionIn (terminals nonterminals : List String) (lhs : Nat) (terms : List Term) :
    Production where
  kind := .normal
  lhs := lhs
  rhs := terms.filterMap (Term.symbolIn? terminals nonterminals)

/-- The grammar of some rules, told from the rules as a whole. -/
def grammarOf (rules : List Rule) : Grammar :=
  let terminals := ((ruleTerms rules).filterMap Term.text?).eraseDups
  let nonterminals := (rules.map Rule.head).eraseDups ++ undefinedNames rules
  { terminals, nonterminals
    start := 0
    productions := rules.flatMap fun r =>
      r.alternatives.map (productionIn terminals nonterminals (nonterminals.idxOf r.head)) }

/-! ### Reading steps -/

namespace RuleTables

/-- The tables are sound, and all heads have their numbers. -/
structure Sound (heads : List String) (t : RuleTables) : Prop where
  terminals : t.terminals.Sound
  nonterminals : t.nonterminals.Sound
  heads : ∀ name ∈ heads, name ∈ t.nonterminals.names

/-- What the tables have gained by some terms. -/
structure Follows (terms : List Term) (t t' : RuleTables) : Prop where
  terminals : t'.terminals.names =
    t.terminals.names ++ newNames t.terminals.names (terms.filterMap Term.text?)
  nonterminals : t'.nonterminals.names =
    t.nonterminals.names ++ newNames t.nonterminals.names (terms.filterMap Term.used?)
  reports : t'.reports =
    t.reports ++ (newNames t.nonterminals.names (terms.filterMap Term.used?)).map undefinedReport

variable {heads : List String} {t t' t'' : RuleTables} {terms more : List Term}

theorem Follows.refl (t : RuleTables) : Follows [] t t := by
  constructor <;> simp [newNames]

theorem Follows.trans (h : Follows terms t t') (h' : Follows more t' t'') :
    Follows (terms ++ more) t t'' where
  terminals := by
    rw [h'.terminals, h.terminals, List.filterMap_append, newNames_append, List.append_assoc]
  nonterminals := by
    rw [h'.nonterminals, h.nonterminals, List.filterMap_append, newNames_append, List.append_assoc]
  reports := by
    rw [h'.reports, h.reports, h.nonterminals, List.filterMap_append, newNames_append,
      List.map_append, List.append_assoc]

theorem Follows.terminals_prefix (h : Follows terms t t') :
    t.terminals.names <+: t'.terminals.names := by
  rw [h.terminals]
  exact List.prefix_append _ _

theorem Follows.nonterminals_prefix (h : Follows terms t t') :
    t.nonterminals.names <+: t'.nonterminals.names := by
  rw [h.nonterminals]
  exact List.prefix_append _ _

end RuleTables

open RuleTables (Follows)

/-- A step that reads some terms. Its result is told in terms of all lists of names that the tables
may grow to, as it does not change any more when further names are met. -/
def Reads {α : Type} (heads : List String) (step : StateM RuleTables α) (terms : List Term)
    (result : List String → List String → α) : Prop :=
  ∀ t : RuleTables, t.Sound heads → (step t).2.Sound heads ∧ Follows terms t (step t).2 ∧
    ∀ {terminals nonterminals}, (step t).2.terminals.names <+: terminals →
      (step t).2.nonterminals.names <+: nonterminals → (step t).1 = result terminals nonterminals

namespace Reads

variable {α β : Type} {heads : List String} {terms more : List Term}

theorem pure (a : α) : Reads heads (Pure.pure a) [] fun _ _ => a :=
  fun t h => ⟨h, .refl t, fun _ _ => rfl⟩

theorem bind {step : StateM RuleTables α} {next : α → StateM RuleTables β}
    {result : List String → List String → α} {nextResult : α → List String → List String → β}
    (h : Reads heads step terms result) (hnext : ∀ a, Reads heads (next a) more (nextResult a)) :
    Reads heads (step >>= next) (terms ++ more) fun terminals nonterminals =>
      nextResult (result terminals nonterminals) terminals nonterminals := by
  intro t ht
  obtain ⟨hsound, hfollows, hresult⟩ := h t ht
  obtain ⟨hsound', hfollows', hresult'⟩ := hnext (step t).1 (step t).2 hsound
  refine ⟨hsound', hfollows.trans hfollows', fun hterminals hnonterminals => ?_⟩
  -- the next step only adds names, so what the first one gave is told in terms of the later lists
  have hfirst := hresult (hfollows'.terminals_prefix.trans hterminals)
    (hfollows'.nonterminals_prefix.trans hnonterminals)
  change (next (step t).1 (step t).2).1 = nextResult (result _ _) _ _
  rw [← hfirst]
  exact hresult' hterminals hnonterminals

theorem mapM {γ : Type} {step : γ → StateM RuleTables α} {termsOf : γ → List Term}
    {result : γ → List String → List String → α} {items : List γ}
    (h : ∀ x ∈ items, Reads heads (step x) (termsOf x) (result x)) :
    Reads heads (items.mapM step) (items.flatMap termsOf) fun terminals nonterminals =>
      items.map fun x => result x terminals nonterminals := by
  induction items with
  | nil => exact pure []
  | cons x items ih =>
    have hrest (a : α) : Reads heads (items.mapM step >>= fun rest => Pure.pure (a :: rest))
        (items.flatMap termsOf) fun terminals nonterminals =>
          a :: items.map fun x => result x terminals nonterminals := by
      simpa using (ih fun y hy => h y (.tail _ hy)).bind fun rest => pure (a :: rest)
    rw [List.mapM_cons, List.flatMap_cons]
    exact (h x (.head _)).bind hrest

theorem filterMapM {γ : Type} {step : γ → StateM RuleTables (Option α)} {termsOf : γ → List Term}
    {result : γ → List String → List String → Option α}
    (h : ∀ x, Reads heads (step x) (termsOf x) (result x)) (items : List γ) :
    Reads heads (items.filterMapM step) (items.flatMap termsOf) fun terminals nonterminals =>
      items.filterMap fun x => result x terminals nonterminals := by
  induction items with
  | nil => exact pure []
  | cons x items ih =>
    have hrest (a : α) : Reads heads (items.filterMapM step >>= fun rest => Pure.pure (a :: rest))
        (items.flatMap termsOf) fun terminals nonterminals =>
          a :: items.filterMap fun x => result x terminals nonterminals := by
      simpa using ih.bind fun rest => pure (a :: rest)
    have hcons : (fun terminals nonterminals =>
        (x :: items).filterMap fun x => result x terminals nonterminals) =
        fun terminals nonterminals => (result x terminals nonterminals).toList ++
          items.filterMap fun x => result x terminals nonterminals := by
      funext terminals nonterminals
      cases hx : result x terminals nonterminals <;> simp [hx]
    rw [List.filterMapM_cons, List.flatMap_cons, hcons]
    refine (h x).bind (?_ : ∀ a? : Option α, Reads heads _ (items.flatMap termsOf)
      fun terminals nonterminals =>
        a?.toList ++ items.filterMap fun x => result x terminals nonterminals)
    rintro (_ | a)
    · exact ih
    · exact hrest a

end Reads

/-! ### The rules are read -/

variable {heads : List String}

/-- A name is reported exactly if it is new. -/
theorem RuleTables.Sound.require_apply {t : RuleTables} (h : t.Sound heads) (name : String) :
    RuleTables.require name t = ((), { t with
      reports := t.reports ++ (newNames t.nonterminals.names [name]).map undefinedReport }) := by
  change ((), if (t.nonterminals.numbers.lookup name).isSome then t
    else { t with reports := t.reports ++ [undefinedReport name] }) = _
  by_cases hname : name ∈ t.nonterminals.names
  · rw [if_pos (h.nonterminals.isSome_lookup.2 hname), newNames_singleton, if_pos hname,
      List.map_nil, List.append_nil]
  · rw [if_neg (mt h.nonterminals.isSome_lookup.1 hname), newNames_singleton, if_neg hname,
      List.map_singleton]

namespace Grammar

theorem reads_terminal {text : String} (h : text.isEmpty = false) :
    Reads heads (RuleTables.terminal text) [.terminal text] fun terminals _ =>
      terminals.idxOf text := by
  intro t ht
  obtain ⟨hsound, hnames, hplace⟩ := ht.terminals.intern text
  have hstep : RuleTables.terminal text t =
      ((t.terminals.intern text).1, { t with terminals := (t.terminals.intern text).2 }) := rfl
  rw [hstep]
  refine ⟨⟨hsound, ht.nonterminals, ht.heads⟩, ⟨?_, ?_, ?_⟩, fun hterminals _ => ?_⟩
  · simpa [List.filterMap_cons, Term.text?, h] using hnames
  · simp [List.filterMap_cons, Term.used?]
  · simp [List.filterMap_cons, Term.used?]
  · exact (hsound.idxOf_eq hplace hterminals).symm

theorem reads_head {name : String} (h : name ∈ heads) :
    Reads heads (RuleTables.nonterminal name) [] fun _ nonterminals => nonterminals.idxOf name := by
  intro t ht
  obtain ⟨hsound, hnames, hplace⟩ := ht.nonterminals.intern name
  rw [newNames_singleton, if_pos (ht.heads name h), List.append_nil] at hnames
  have hstep : RuleTables.nonterminal name t =
      ((t.nonterminals.intern name).1, { t with nonterminals := (t.nonterminals.intern name).2 }) :=
    rfl
  rw [hstep]
  refine ⟨⟨ht.terminals, hsound, ?_⟩, ⟨?_, ?_, ?_⟩, fun _ hnonterminals => ?_⟩
  · rw [hnames]
    exact ht.heads
  · simp
  · simpa using hnames
  · simp
  · exact (hsound.idxOf_eq hplace hnonterminals).symm

/-- A name that has no number yet is reported when it gets one. -/
theorem reads_nonterminal (name : String) :
    Reads heads (do RuleTables.require name; RuleTables.nonterminal name) [.nonterminal name]
      fun _ nonterminals => nonterminals.idxOf name := by
  intro t ht
  obtain ⟨hsound, hnames, hplace⟩ := ht.nonterminals.intern name
  have hstep : (do RuleTables.require name; RuleTables.nonterminal name : StateM RuleTables Nat) t =
      ((t.nonterminals.intern name).1, { t with
        nonterminals := (t.nonterminals.intern name).2
        reports := t.reports ++ (newNames t.nonterminals.names [name]).map undefinedReport }) := by
    change RuleTables.nonterminal name (RuleTables.require name t).2 = _
    rw [ht.require_apply]
    rfl
  rw [hstep]
  refine ⟨⟨ht.terminals, hsound, ?_⟩, ⟨?_, ?_, ?_⟩, fun _ hnonterminals => ?_⟩
  · intro head hhead
    rw [hnames]
    exact List.mem_append_left _ (ht.heads head hhead)
  · simp [List.filterMap_cons, Term.text?]
  · simpa [List.filterMap_cons, Term.used?] using hnames
  · simp [Term.used?]
  · exact (hsound.idxOf_eq hplace hnonterminals).symm

theorem reads_empty {text : String} (h : text.isEmpty = true) :
    Reads heads (pure none : StateM RuleTables (Option Symbol)) [.terminal text]
      fun _ _ => none := by
  intro t ht
  have hsame : Follows [.terminal text] t t := by
    constructor <;> simp [List.filterMap_cons, Term.text?, Term.used?, h]
  exact ⟨ht, hsame, fun _ _ => rfl⟩

theorem reads_termSymbol? (term : Term) :
    Reads heads (termSymbol? term) [term] fun terminals nonterminals =>
      term.symbolIn? terminals nonterminals := by
  cases term with
  | terminal text =>
    cases h : text.isEmpty with
    | true => simpa [termSymbol?, Term.symbolIn?, h] using reads_empty h
    | false =>
      simpa [termSymbol?, Term.symbolIn?, h] using
        (reads_terminal h).bind fun id => .pure (some (Symbol.terminal id))
  | nonterminal name =>
    simpa [termSymbol?, Term.symbolIn?] using
      (reads_nonterminal name).bind fun id => .pure (some (Symbol.nonterminal id))

theorem reads_ruleProduction (lhs : Nat) (terms : List Term) :
    Reads heads (ruleProduction lhs terms) terms fun terminals nonterminals =>
      productionIn terminals nonterminals lhs terms := by
  have hterms : Reads heads (terms.filterMapM termSymbol?) (terms.flatMap fun term => [term])
      fun terminals nonterminals => terms.filterMap (Term.symbolIn? terminals nonterminals) :=
    Reads.filterMapM reads_termSymbol? terms
  rw [List.flatMap_singleton'] at hterms
  simpa [ruleProduction, productionIn] using
    hterms.bind fun rhs => .pure (Production.mk .normal lhs rhs none)

theorem reads_ruleProductions {r : Rule} (h : r.head ∈ heads) :
    Reads heads (ruleProductions r) r.alternatives.flatten fun terminals nonterminals =>
      r.alternatives.map (productionIn terminals nonterminals (nonterminals.idxOf r.head)) := by
  have halternatives (lhs : Nat) : Reads heads (r.alternatives.mapM (ruleProduction lhs))
      (r.alternatives.flatMap id) fun terminals nonterminals =>
        r.alternatives.map (productionIn terminals nonterminals lhs) :=
    Reads.mapM fun terms _ => reads_ruleProduction lhs terms
  simpa [ruleProductions] using (reads_head h).bind halternatives

theorem reads_rules {rules : List Rule} (h : ∀ r ∈ rules, r.head ∈ heads) :
    Reads heads (rules.mapM ruleProductions) (ruleTerms rules) fun terminals nonterminals =>
      rules.map fun r =>
        r.alternatives.map (productionIn terminals nonterminals (nonterminals.idxOf r.head)) :=
  Reads.mapM fun r hr => reads_ruleProductions (h r hr)

theorem sound_ruleHeads (rules : List Rule) :
    (ruleHeads rules).Sound ∧ (ruleHeads rules).names = (rules.map Rule.head).eraseDups := by
  have hheads := NameTable.sound_empty.foldl_intern (rules.map Rule.head)
  rw [List.foldl_map, newNames_nil_left, List.nil_append] at hheads
  exact hheads

/-- Reading rule after rule gives what the rules say as a whole. -/
theorem ofRules_eq (rules : List Rule) :
    ofRules rules =
      (if (grammarOf rules).productions.isEmpty then .error .emptyGrammar
        else .ok (grammarOf rules),
        (undefinedNames rules).map undefinedReport) := by
  obtain ⟨hsound, hheads⟩ := sound_ruleHeads rules
  have hstart : RuleTables.Sound (rules.map Rule.head) { nonterminals := ruleHeads rules } := by
    refine ⟨NameTable.sound_empty, hsound, fun name hname => ?_⟩
    rw [hheads, List.mem_eraseDups]
    exact hname
  obtain ⟨-, hfollows, hresult⟩ :=
    reads_rules (fun r hr => List.mem_map_of_mem hr) { nonterminals := ruleHeads rules } hstart
  rw [ofRules]
  generalize rules.mapM ruleProductions { nonterminals := ruleHeads rules } = outcome
    at hfollows hresult ⊢
  obtain ⟨productions, t⟩ := outcome
  have hundefined : newNames (ruleHeads rules).names ((ruleTerms rules).filterMap Term.used?) =
      undefinedNames rules := by
    rw [hheads]
    exact newNames_congr fun _ => List.mem_eraseDups
  have hterminals : t.terminals.names = (grammarOf rules).terminals := by
    rw [hfollows.terminals, newNames_nil_left]
    rfl
  have hnonterminals : t.nonterminals.names = (grammarOf rules).nonterminals := by
    rw [hfollows.nonterminals, hundefined, hheads]
    rfl
  have hreports : t.reports = (undefinedNames rules).map undefinedReport := by
    rw [hfollows.reports, hundefined, List.nil_append]
  -- the last tables are among those that the tables may grow to
  have hproductions : productions.flatten = (grammarOf rules).productions :=
    congrArg List.flatten
      (hresult (hterminals ▸ List.prefix_rfl) (hnonterminals ▸ List.prefix_rfl))
  simp only [hterminals, hnonterminals, hreports, hproductions]
  rfl

/-! ### Back to the rules -/

def termOf (g : Grammar) : Symbol → Term
  | .terminal id => .terminal (g.symbolName (.terminal id))
  | .nonterminal id => .nonterminal (g.symbolName (.nonterminal id))

def spelling (g : Grammar) (p : Production) : String × List Term :=
  (g.symbolName (.nonterminal p.lhs), p.rhs.map g.termOf)

/-- The grammar and the reports are what the rules say. -/
structure Spells (g : Grammar) (reports : List Diagnostic) (rules : List Rule) : Prop where
  /-- A term is a terminal or a non-terminal, so symbols of one spelling are told apart. -/
  productions : g.productions.map g.spelling = rules.flatMap fun r =>
    r.alternatives.map fun terms => (r.head, terms.filter (· ≠ .terminal ""))
  plain : ∀ p ∈ g.productions, p.kind = .normal ∧ p.name = none
  wellFormed : ∀ p ∈ g.productions, g.WellFormed p
  terminals : g.terminals = ((ruleTerms rules).filterMap Term.text?).eraseDups
  nodup_terminals : g.terminals.Nodup
  nonterminals : g.nonterminals = (rules.map Rule.head).eraseDups ++ undefinedNames rules
  nodup_nonterminals : g.nonterminals.Nodup
  start : g.start = 0 ∧ rules.head?.map Rule.head = some (g.symbolName (.nonterminal 0))
  mem_undefinedNames : ∀ {name}, name ∈ undefinedNames rules ↔
    Term.nonterminal name ∈ ruleTerms rules ∧ name ∉ rules.map Rule.head
  reports : reports = (undefinedNames rules).map undefinedReport

variable {rules : List Rule}

theorem mem_undefinedNames {name : String} : name ∈ undefinedNames rules ↔
    Term.nonterminal name ∈ ruleTerms rules ∧ name ∉ rules.map Rule.head := by
  have hused : name ∈ (ruleTerms rules).filterMap Term.used? ↔
      Term.nonterminal name ∈ ruleTerms rules := by
    rw [List.mem_filterMap]
    constructor
    · rintro ⟨term, hterm, hname⟩
      cases term <;> simp_all [Term.used?]
    · exact fun h => ⟨_, h, rfl⟩
  rw [undefinedNames, mem_newNames, hused]

theorem nodup_nonterminals_grammarOf (rules : List Rule) :
    (grammarOf rules).nonterminals.Nodup := by
  change ((rules.map Rule.head).eraseDups ++ undefinedNames rules).Nodup
  rw [undefinedNames, ← eraseDups_append_eq]
  exact nodup_eraseDups _

theorem mem_nonterminals_of_rule {r : Rule} (h : r ∈ rules) :
    r.head ∈ (grammarOf rules).nonterminals := by
  refine List.mem_append_left _ (List.mem_eraseDups.2 (List.mem_map_of_mem h))

theorem mem_nonterminals_of_term {name : String} (h : Term.nonterminal name ∈ ruleTerms rules) :
    name ∈ (grammarOf rules).nonterminals := by
  by_cases hhead : name ∈ rules.map Rule.head
  · exact List.mem_append_left _ (List.mem_eraseDups.2 hhead)
  · exact List.mem_append_right _ (mem_undefinedNames.2 ⟨h, hhead⟩)

theorem mem_terminals_of_term {text : String} (h : Term.terminal text ∈ ruleTerms rules)
    (hne : text.isEmpty = false) : text ∈ (grammarOf rules).terminals :=
  List.mem_eraseDups.2 (List.mem_filterMap.2 ⟨_, h, by simp [Term.text?, hne]⟩)

/-- A term that has a symbol is what the symbol stands for; only the empty terminal has none. -/
theorem symbolIn?_cases {term : Term} (h : term ∈ ruleTerms rules) :
    (term = .terminal "" ∧
      term.symbolIn? (grammarOf rules).terminals (grammarOf rules).nonterminals = none) ∨
    (term ≠ .terminal "" ∧ ∃ s,
      term.symbolIn? (grammarOf rules).terminals (grammarOf rules).nonterminals = some s ∧
        (grammarOf rules).Declares s ∧ (grammarOf rules).termOf s = term) := by
  cases term with
  | terminal text =>
    cases hempty : text.isEmpty with
    | true =>
      obtain rfl := String.isEmpty_iff.1 hempty
      exact .inl ⟨rfl, rfl⟩
    | false =>
      obtain ⟨hdeclares, hname⟩ := declares_terminal
        (getElem?_idxOf_of_mem (mem_terminals_of_term h hempty))
      refine .inr ⟨fun heq => ?_, _, by simp [Term.symbolIn?, hempty], hdeclares,
        congrArg Term.terminal hname⟩
      simp [Term.terminal.inj heq] at hempty
  | nonterminal name =>
    obtain ⟨hdeclares, hname⟩ := declares_nonterminal
      (getElem?_idxOf_of_mem (mem_nonterminals_of_term h))
    exact .inr ⟨by simp, _, rfl, hdeclares, congrArg Term.nonterminal hname⟩

variable {terms : List Term}

theorem wellFormed_productionIn {r : Rule} (hr : r ∈ rules)
    (hterms : ∀ term ∈ terms, term ∈ ruleTerms rules) :
    (grammarOf rules).WellFormed (productionIn (grammarOf rules).terminals
      (grammarOf rules).nonterminals ((grammarOf rules).nonterminals.idxOf r.head) terms) := by
  refine ⟨(declares_nonterminal (getElem?_idxOf_of_mem (mem_nonterminals_of_rule hr))).1,
    fun s hs => ?_⟩
  obtain ⟨term, hterm, hsymbol⟩ := List.mem_filterMap.1 hs
  rcases symbolIn?_cases (hterms term hterm) with ⟨-, hnone⟩ | ⟨-, s', hsome, hdeclares, -⟩
  · simp [hnone] at hsymbol
  · rw [hsome, Option.some.injEq] at hsymbol
    exact hsymbol ▸ hdeclares

theorem spelling_productionIn {r : Rule} (hr : r ∈ rules)
    (hterms : ∀ term ∈ terms, term ∈ ruleTerms rules) :
    (grammarOf rules).spelling (productionIn (grammarOf rules).terminals
      (grammarOf rules).nonterminals ((grammarOf rules).nonterminals.idxOf r.head) terms) =
      (r.head, terms.filter (· ≠ .terminal "")) := by
  have hhead := (declares_nonterminal (getElem?_idxOf_of_mem (mem_nonterminals_of_rule hr))).2
  refine Prod.ext hhead ?_
  simp only [spelling, productionIn, List.map_filterMap]
  rw [← List.filterMap_eq_filter]
  refine List.filterMap_congr fun term hterm => ?_
  rcases symbolIn?_cases (hterms term hterm) with ⟨rfl, hnone⟩ | ⟨hne, s, hsome, -, hback⟩
  · simp [hnone, Option.guard]
  · simp [hsome, hback, hne, Option.guard]

theorem mem_ruleTerms {r : Rule} (hr : r ∈ rules) (hterms : terms ∈ r.alternatives) :
    ∀ term ∈ terms, term ∈ ruleTerms rules := fun _ hterm =>
  List.mem_flatMap.2 ⟨r, hr, List.mem_flatten.2 ⟨terms, hterms, hterm⟩⟩

theorem mem_productions_grammarOf {p : Production} :
    p ∈ (grammarOf rules).productions ↔ ∃ r ∈ rules, ∃ terms ∈ r.alternatives,
      productionIn (grammarOf rules).terminals (grammarOf rules).nonterminals
        ((grammarOf rules).nonterminals.idxOf r.head) terms = p := by
  simp only [grammarOf, List.mem_flatMap, List.mem_map]

theorem getElem?_zero_nonterminals (r : Rule) (rules : List Rule) :
    (grammarOf (r :: rules)).nonterminals[0]? = some r.head := by
  simp [grammarOf, List.eraseDups_cons]

theorem spelling_productions_grammarOf (rules : List Rule) :
    (grammarOf rules).productions.map (grammarOf rules).spelling = rules.flatMap fun r =>
      r.alternatives.map fun terms => (r.head, terms.filter (· ≠ .terminal "")) := by
  change (rules.flatMap _).map _ = _
  rw [List.map_flatMap, List.flatMap_def, List.flatMap_def]
  refine congrArg List.flatten (List.map_congr_left fun r hr => ?_)
  rw [List.map_map]
  exact List.map_congr_left fun terms hterms => spelling_productionIn hr (mem_ruleTerms hr hterms)

/-- Rules with an alternative always make a grammar, and it spells them. -/
theorem spells_of_ofRules (h : ∃ r ∈ rules, r.alternatives ≠ []) :
    ∃ g reports, ofRules rules = (.ok g, reports) ∧ g.Spells reports rules ∧
      ∀ (read? : Reader) text, read? text = some rules →
        ofBnf read? text = (.ok g, reports) := by
  obtain ⟨r, hr, halternatives⟩ := h
  obtain ⟨terms, hterms⟩ := List.exists_mem_of_ne_nil _ halternatives
  have hne : (grammarOf rules).productions ≠ [] :=
    List.ne_nil_of_mem (mem_productions_grammarOf.2 ⟨r, hr, terms, hterms, rfl⟩)
  have hrules : ofRules rules =
      (.ok (grammarOf rules), (undefinedNames rules).map undefinedReport) := by
    rw [ofRules_eq, if_neg (by simpa using hne)]
  refine ⟨_, _, hrules, ?_, fun read? text htext => by rw [ofBnf, htext]; exact hrules⟩
  exact {
    productions := spelling_productions_grammarOf rules
    plain := fun p hp => by
      obtain ⟨r, -, terms, -, rfl⟩ := mem_productions_grammarOf.1 hp
      exact ⟨rfl, rfl⟩
    wellFormed := fun p hp => by
      obtain ⟨r, hr, terms, hterms, rfl⟩ := mem_productions_grammarOf.1 hp
      exact wellFormed_productionIn hr (mem_ruleTerms hr hterms)
    terminals := rfl
    nodup_terminals := nodup_eraseDups _
    nonterminals := rfl
    nodup_nonterminals := nodup_nonterminals_grammarOf rules
    start := by
      cases rules with
      | nil => simp at hr
      | cons first rules =>
        exact ⟨rfl, congrArg some
          (declares_nonterminal (getElem?_zero_nonterminals first rules)).2.symm⟩
    mem_undefinedNames := mem_undefinedNames
    reports := rfl }

/-- A head with two rules, a terminal and a non-terminal of one spelling, undefined names that are
used again, and empty terminals. -/
def mixedRules : List Rule :=
  [⟨"a", [[.nonterminal "b", .terminal "x"], [.terminal ""]]⟩,
    ⟨"c", [[.terminal "a", .nonterminal "d", .terminal "", .nonterminal "b"]]⟩,
    ⟨"a", [[.terminal "x", .nonterminal "d", .nonterminal "a"]]⟩]

def mixedText : String :=
  "<a> ::= <b> \"x\" | \"\"\n<c> ::= \"a\" <d> '' <b>\n<a> ::= 'x' <d> <a>"

def mixedGrammar : Grammar where
  terminals := ["x", "a"]
  nonterminals := ["a", "c", "b", "d"]
  start := 0
  productions :=
    [⟨.normal, 0, [.nonterminal 2, .terminal 0], none⟩, ⟨.normal, 0, [], none⟩,
      ⟨.normal, 1, [.terminal 1, .nonterminal 3, .nonterminal 2], none⟩,
      ⟨.normal, 0, [.terminal 0, .nonterminal 3, .nonterminal 0], none⟩]

def mixedReports : List Diagnostic :=
  [.error "undefined non-terminal <b>" none, .error "undefined non-terminal <d>" none]

theorem spells_mixed :
    ofBnf read? mixedText.toList = (.ok mixedGrammar, mixedReports) ∧
      mixedGrammar.Spells mixedReports mixedRules := by
  have halternatives : ∃ r ∈ mixedRules, r.alternatives ≠ [] := by decide
  obtain ⟨g, reports, hrules, hspells, htext⟩ := spells_of_ofRules halternatives
  have hmixed : ofRules mixedRules = (.ok mixedGrammar, mixedReports) := by decide +kernel
  rw [hmixed, Prod.mk.injEq, Except.ok.injEq] at hrules
  obtain ⟨rfl, rfl⟩ := hrules
  exact ⟨htext read? _ (by decide), hspells⟩

end Grammar

end SyntaxTables
