import Mathlib.Data.List.Forall2
import Mathlib.Data.List.Induction
import Mathlib.Data.List.Perm.Basic
import SyntaxTables.Grammar.Draft
import SyntaxTables.Proofs.Grammar.Names

/-!
# What a draft becomes

A draft is made by any sequence of calls. What such a sequence asks for is read off it without any
numbers: the first declaration of each name counts, a request is kept if all its names are declared
somewhere, and the last choice of a start symbol counts. The finished grammar is this, by numbers:
all numbers lead back to the names that were asked for.

The table of symbols carries the proof. It is kept by each declaration, repeated ones included, that
a name has a symbol exactly if the name stands in the place of the symbol's number.
-/

namespace SyntaxTables

/-! ### What a sequence of calls asks for -/

/-- The elements that a test accepts together with all that stand in front of them. -/
def filterBehind {α : Type} (test : List α → α → Bool) (front : List α) : List α → List α
  | [] => []
  | x :: xs =>
    if test front x then x :: filterBehind test (front ++ [x]) xs
    else filterBehind test (front ++ [x]) xs

theorem filterBehind_concat {α : Type} (test : List α → α → Bool) (front xs : List α) (x : α) :
    filterBehind test front (xs ++ [x]) =
      filterBehind test front xs ++ if test (front ++ xs) x then [x] else [] := by
  induction xs generalizing front with
  | nil => simp [filterBehind]
  | cons y ys ih => by_cases h : test front y <;> simp [filterBehind, h, ih]

/-- A name with the sort of symbol that it is declared as. -/
structure Declaration where
  terminal : Bool
  name : String
deriving DecidableEq, Repr

namespace Declaration

def firsts (ds : List Declaration) : List Declaration :=
  filterBehind (fun front d => d.name ∉ front.map name) [] ds

def repeated (ds : List Declaration) : List Declaration :=
  filterBehind (fun front d => d.name ∈ front.map name) [] ds

/-- The names whose first declaration is of the given sort. -/
def namesOf (terminal : Bool) (ds : List Declaration) : List String :=
  ((firsts ds).filter (·.terminal == terminal)).map name

/-- The left-hand side of a request is declared as a non-terminal, and all names of its body are
declared. -/
def Covers (ds : List Declaration) (r : ProductionRequest) : Prop :=
  r.lhs ∈ namesOf false ds ∧ ∀ n ∈ r.rhs, n ∈ ds.map name

instance (ds : List Declaration) (r : ProductionRequest) : Decidable (Covers ds r) :=
  inferInstanceAs (Decidable (_ ∧ _))

variable {ds : List Declaration} {d : Declaration}

theorem firsts_concat :
    firsts (ds ++ [d]) = if d.name ∈ ds.map name then firsts ds else firsts ds ++ [d] := by
  simp only [firsts, filterBehind_concat, List.nil_append]
  split_ifs <;> simp_all

theorem repeated_concat :
    repeated (ds ++ [d]) = if d.name ∈ ds.map name then repeated ds ++ [d] else repeated ds := by
  simp only [repeated, filterBehind_concat, List.nil_append]
  split_ifs <;> simp_all

theorem mem_names_firsts {n : String} : n ∈ (firsts ds).map name ↔ n ∈ ds.map name := by
  induction ds using List.reverseRecOn with
  | nil => rfl
  | append_singleton ds d ih =>
    rw [firsts_concat]
    split_ifs with h
    · rw [ih, List.map_append, List.mem_append, List.map_singleton, List.mem_singleton]
      exact ⟨Or.inl, fun hn => hn.elim id fun hn => hn ▸ h⟩
    · simp only [List.map_append, List.mem_append, ih]

theorem nodup_names_firsts (ds : List Declaration) : ((firsts ds).map name).Nodup := by
  induction ds using List.reverseRecOn with
  | nil => exact List.nodup_nil
  | append_singleton ds d ih =>
    rw [firsts_concat]
    split_ifs with h
    · exact ih
    · rw [List.map_append, List.map_singleton, (List.perm_append_singleton _ _).nodup_iff]
      exact List.nodup_cons.2 ⟨mt mem_names_firsts.1 h, ih⟩

theorem namesOf_append_perm (ds : List Declaration) :
    List.Perm (namesOf true ds ++ namesOf false ds) ((firsts ds).map name) := by
  have hother : (firsts ds).filter (·.terminal == false) =
      (firsts ds).filter fun d => !(d.terminal == true) := by
    refine List.filter_congr fun d _ => ?_
    cases d.terminal <;> rfl
  rw [namesOf, namesOf, ← List.map_append, hother]
  exact (List.filter_append_perm _ _).map _

theorem mem_namesOf_or {n : String} :
    n ∈ namesOf true ds ∨ n ∈ namesOf false ds ↔ n ∈ ds.map name := by
  rw [← List.mem_append, (namesOf_append_perm ds).mem_iff, mem_names_firsts]

/-- A new declaration is the last one of its sort, a repeated one changes nothing. -/
theorem namesOf_concat (terminal : Bool) :
    namesOf terminal (ds ++ [d]) =
      if d.name ∈ ds.map name ∨ d.terminal ≠ terminal then namesOf terminal ds
      else namesOf terminal ds ++ [d.name] := by
  rw [namesOf, firsts_concat]
  by_cases hname : d.name ∈ ds.map name
  · rw [if_pos hname, if_pos (Or.inl hname), namesOf]
  · by_cases hsort : d.terminal = terminal <;> simp [hname, hsort, namesOf]

end Declaration

/-- A call to a draft. -/
inductive DraftCall
  | terminal (name : String)
  | terminals (names : List String)
  | nonterminal (name : String)
  | nonterminals (names : List String)
  | start (name : String)
  | production (lhs : String) (rhs : List String)
  | productionWith (kind : ProductionKind) (lhs : String) (rhs : List String)
      (name : Option String)
  | productionAt (lhs : String) (rhs : List String) (location : Location)

namespace DraftCall

@[simp] def apply (d : GrammarDraft) : DraftCall → GrammarDraft
  | terminal name => d.terminal name
  | terminals names => names.foldl (fun d name => d.terminal name) d
  | nonterminal name => d.nonterminal name
  | nonterminals names => names.foldl (fun d name => d.nonterminal name) d
  | start name => d.startAt name
  | production lhs rhs => d.production { lhs, rhs }
  | productionWith kind lhs rhs name => d.production { kind, lhs, rhs, name }
  | productionAt lhs rhs location => d.production { lhs, rhs, location := some location }

def draft (calls : List DraftCall) : GrammarDraft := calls.foldl apply {}

@[simp] def declarations : DraftCall → List Declaration
  | terminal name => [⟨true, name⟩]
  | terminals names => names.map (Declaration.mk true)
  | nonterminal name => [⟨false, name⟩]
  | nonterminals names => names.map (Declaration.mk false)
  | _ => []

@[simp] def request? : DraftCall → Option ProductionRequest
  | production lhs rhs => some { lhs, rhs }
  | productionWith kind lhs rhs name => some { kind, lhs, rhs, name }
  | productionAt lhs rhs location => some { lhs, rhs, location := some location }
  | _ => none

@[simp] def start? : DraftCall → Option String
  | start name => some name
  | _ => none

variable (calls : List DraftCall)

/-- All declarations, those of one call in its order. -/
def declared : List Declaration := calls.flatMap declarations

def requested : List ProductionRequest := calls.filterMap request?

def chosen? : Option String := (calls.filterMap start?).getLast?

variable (c : DraftCall)

theorem declared_concat : declared (calls ++ [c]) = declared calls ++ c.declarations := by
  rw [declared, List.flatMap_append, List.flatMap_singleton, declared]

theorem requested_concat : requested (calls ++ [c]) = requested calls ++ c.request?.toList := by
  rw [requested, List.filterMap_append, requested, List.filterMap_cons]
  cases c.request? <;> rfl

theorem chosen?_concat : chosen? (calls ++ [c]) = c.start?.or (chosen? calls) := by
  rw [chosen?, List.filterMap_append, List.getLast?_append, List.filterMap_cons]
  cases c.start? <;> rfl

/-- The requests with declared names only. The declarations may come later than the request. -/
def kept : List ProductionRequest :=
  (requested calls).filter fun r => Declaration.Covers (declared calls) r

def dropped : List ProductionRequest :=
  (requested calls).filter fun r => ¬ Declaration.Covers (declared calls) r

def startName? : Option String := (chosen? calls).or ((kept calls).head?.map ProductionRequest.lhs)

end DraftCall

/-! ### The table of symbols -/

namespace GrammarDraft

def Names (d : GrammarDraft) : Symbol → String → Prop
  | .terminal id, name => d.terminals[id]? = some name
  | .nonterminal id, name => d.nonterminals[id]? = some name

variable {d : GrammarDraft} {ds : List Declaration} {requests : List ProductionRequest}
  {chosen : Option String}

theorem exists_names_iff {name : String} :
    (∃ s, d.Names s name) ↔ name ∈ d.terminals ∨ name ∈ d.nonterminals := by
  constructor
  · rintro ⟨id | id, h⟩
    · exact .inl (List.mem_of_getElem? h)
    · exact .inr (List.mem_of_getElem? h)
  · rintro (h | h)
    · obtain ⟨id, h⟩ := List.mem_iff_getElem?.1 h
      exact ⟨.terminal id, h⟩
    · obtain ⟨id, h⟩ := List.mem_iff_getElem?.1 h
      exact ⟨.nonterminal id, h⟩

/-- The draft has what it was told so far, and its table leads from each declared name to the symbol
of that name. -/
structure Records (d : GrammarDraft) (ds : List Declaration) (requests : List ProductionRequest)
    (chosen : Option String) : Prop where
  terminals : d.terminals = Declaration.namesOf true ds
  nonterminals : d.nonterminals = Declaration.namesOf false ds
  duplicates : d.duplicates = (Declaration.repeated ds).map Declaration.name
  symbol?_eq_some : ∀ {name s}, d.symbol? name = some s ↔ d.Names s name
  requests : d.requests = requests
  start : d.start = chosen

theorem records_empty : Records {} [] [] none where
  terminals := rfl
  nonterminals := rfl
  duplicates := rfl
  symbol?_eq_some {_ s} := by cases s <;> simp [symbol?, Names]
  requests := rfl
  start := rfl

theorem Records.isSome_symbol? (h : d.Records ds requests chosen) {name : String} :
    (d.symbol? name).isSome ↔ name ∈ ds.map Declaration.name := by
  rw [Option.isSome_iff_exists]
  simp only [h.symbol?_eq_some]
  rw [exists_names_iff, h.terminals, h.nonterminals, Declaration.mem_namesOf_or]

/-- A new name gets the symbol whose place it takes; a name that is taken changes no symbol. -/
theorem Records.declare (h : d.Records ds requests chosen) (terminal : Bool) (name : String) :
    (d.declare terminal name).Records (ds ++ [⟨terminal, name⟩]) requests chosen := by
  unfold GrammarDraft.declare
  by_cases htaken : name ∈ ds.map Declaration.name
  · rw [if_pos (h.isSome_symbol?.2 htaken)]
    exact { h with
      terminals := by rw [Declaration.namesOf_concat, if_pos (.inl htaken), h.terminals]
      nonterminals := by rw [Declaration.namesOf_concat, if_pos (.inl htaken), h.nonterminals]
      duplicates := by simp [Declaration.repeated_concat, htaken, h.duplicates]
      symbol?_eq_some := h.symbol?_eq_some }
  · rw [if_neg (mt h.isSome_symbol?.1 htaken)]
    have hnone : ∀ s, ¬ d.Names s name := fun s hs =>
      htaken (h.isSome_symbol?.1 (Option.isSome_iff_exists.2 ⟨s, h.symbol?_eq_some.2 hs⟩))
    have hnew : d.symbols.lookup name = none := Option.eq_none_iff_forall_ne_some.2 fun s hs =>
      hnone s (h.symbol?_eq_some.1 hs)
    -- the new name stands in front of the table, so every other name is looked up as before
    have hlookup {n : String} {s new : Symbol} :
        ((name, new) :: d.symbols).lookup n = some s ↔ d.Names s n ∨ s = new ∧ name = n :=
      (lookup_cons_eq_some hnew).trans (or_congr_left h.symbol?_eq_some)
    cases terminal with
    | true =>
      refine { h with terminals := ?_, nonterminals := ?_, duplicates := ?_, symbol?_eq_some := ?_ }
      · simp [Declaration.namesOf_concat, htaken, h.terminals]
      · simp [Declaration.namesOf_concat, htaken, h.nonterminals]
      · simp [Declaration.repeated_concat, htaken, h.duplicates]
      · rintro n (id | id)
        · simp [symbol?, hlookup, Names, getElem?_concat_eq_some]
        · simp [symbol?, hlookup, Names]
    | false =>
      refine { h with terminals := ?_, nonterminals := ?_, duplicates := ?_, symbol?_eq_some := ?_ }
      · simp [Declaration.namesOf_concat, htaken, h.terminals]
      · simp [Declaration.namesOf_concat, htaken, h.nonterminals]
      · simp [Declaration.repeated_concat, htaken, h.duplicates]
      · rintro n (id | id)
        · simp [symbol?, hlookup, Names]
        · simp [symbol?, hlookup, Names, getElem?_concat_eq_some]

theorem Records.declare_all (h : d.Records ds requests chosen) (terminal : Bool)
    (names : List String) :
    (names.foldl (fun d name => d.declare terminal name) d).Records
      (ds ++ names.map (Declaration.mk terminal)) requests chosen := by
  induction names generalizing d ds with
  | nil => simpa using h
  | cons name names ih => simpa using ih (h.declare terminal name)

theorem Records.startAt (h : d.Records ds requests chosen) (name : String) :
    (d.startAt name).Records ds requests (some name) :=
  { h with symbol?_eq_some := h.symbol?_eq_some, start := rfl }

theorem Records.production (h : d.Records ds requests chosen) (r : ProductionRequest) :
    (d.production r).Records ds (requests ++ [r]) chosen :=
  { h with
    symbol?_eq_some := h.symbol?_eq_some
    requests := congrArg (· ++ [r]) h.requests }

theorem Records.apply {calls : List DraftCall}
    (h : d.Records (DraftCall.declared calls) (DraftCall.requested calls) (DraftCall.chosen? calls))
    (c : DraftCall) :
    (c.apply d).Records (DraftCall.declared (calls ++ [c])) (DraftCall.requested (calls ++ [c]))
      (DraftCall.chosen? (calls ++ [c])) := by
  rw [DraftCall.declared_concat, DraftCall.requested_concat, DraftCall.chosen?_concat]
  cases c with
  | terminal name => simpa [terminal] using h.declare true name
  | terminals names => simpa [terminal] using h.declare_all true names
  | nonterminal name => simpa [nonterminal] using h.declare false name
  | nonterminals names => simpa [nonterminal] using h.declare_all false names
  | start name => simpa using h.startAt name
  | production lhs rhs => simpa using h.production { lhs, rhs }
  | productionWith kind lhs rhs name => simpa using h.production { kind, lhs, rhs, name }
  | productionAt lhs rhs location =>
    simpa using h.production { lhs, rhs, location := some location }

theorem records_draft (calls : List DraftCall) :
    (DraftCall.draft calls).Records (DraftCall.declared calls) (DraftCall.requested calls)
      (DraftCall.chosen? calls) := by
  induction calls using List.reverseRecOn with
  | nil => exact records_empty
  | append_singleton calls c ih =>
    rw [DraftCall.draft, List.foldl_concat]
    exact ih.apply c

/-! ### The finished grammar -/

/-- The production is what the request asks for, by numbers. -/
structure Answers (d : GrammarDraft) (p : Production) (r : ProductionRequest) : Prop where
  kind : p.kind = r.kind
  name : p.name = r.name
  lhs : d.Names (.nonterminal p.lhs) r.lhs
  rhs : List.Forall₂ d.Names p.rhs r.rhs

theorem Records.lhs?_eq_ok_iff (h : d.Records ds requests chosen) {name : String} {id : Nat} :
    d.lhs? name = .ok id ↔ d.Names (.nonterminal id) name := by
  rw [← h.symbol?_eq_some, lhs?]
  split <;> simp_all

theorem Records.rhs?_eq_ok_iff (h : d.Records ds requests chosen) {lhs : String}
    {names : List String} {symbols : List Symbol} :
    d.rhs? lhs names = .ok symbols ↔ List.Forall₂ d.Names symbols names := by
  induction names generalizing symbols with
  | nil => simp [rhs?, eq_comm]
  | cons name names ih =>
    cases hs : d.symbol? name with
    | none =>
      have hnone : ∀ s, ¬ d.Names s name := fun s hn => by simp [h.symbol?_eq_some.2 hn] at hs
      simp [rhs?, hs, List.forall₂_cons_right_iff, hnone]
    | some s =>
      have hname {t : Symbol} : d.Names t name ↔ t = s := by
        rw [← h.symbol?_eq_some, hs, Option.some.injEq, eq_comm]
      cases hrest : d.rhs? lhs names with
      | error e =>
        have hnone : ∀ rest, ¬ List.Forall₂ d.Names rest names := fun rest hr => by
          simp [ih.2 hr] at hrest
        simp [rhs?, hs, hrest, List.forall₂_cons_right_iff, hnone]
      | ok rest =>
        have hothers {others : List Symbol} :
            List.Forall₂ d.Names others names ↔ others = rest := by
          rw [← ih, hrest, Except.ok.injEq, eq_comm]
        simp [rhs?, hs, hrest, List.forall₂_cons_right_iff, hname, hothers, eq_comm]

theorem Records.resolve_eq_ok_iff (h : d.Records ds requests chosen) {r : ProductionRequest}
    {p : Production} : d.resolve r = .ok p ↔ d.Answers p r := by
  unfold resolve
  constructor
  · intro hp
    cases hl : d.lhs? r.lhs with
    | error e => simp [hl, bind, Except.bind] at hp
    | ok lhs =>
      cases hr : d.rhs? r.lhs r.rhs with
      | error e => simp [hl, hr, bind, Except.bind] at hp
      | ok rhs =>
        simp only [hl, hr, bind, Except.bind, pure, Except.pure, Except.ok.injEq] at hp
        subst hp
        exact ⟨rfl, rfl, h.lhs?_eq_ok_iff.1 hl, h.rhs?_eq_ok_iff.1 hr⟩
  · rintro ⟨hk, hn, hl, hr⟩
    rw [h.lhs?_eq_ok_iff.2 hl, h.rhs?_eq_ok_iff.2 hr, ← hk, ← hn]
    rfl

theorem exists_forall₂_iff {α β : Type} {R : α → β → Prop} {ys : List β} :
    (∃ xs, List.Forall₂ R xs ys) ↔ ∀ y ∈ ys, ∃ x, R x y := by
  induction ys with
  | nil => simp
  | cons y ys ih =>
    rw [List.forall_mem_cons, ← ih]
    constructor
    · rintro ⟨-, hx | hx⟩
      exact ⟨⟨_, ‹_›⟩, _, ‹_›⟩
    · rintro ⟨⟨x, hx⟩, xs, hxs⟩
      exact ⟨x :: xs, .cons hx hxs⟩

theorem Records.covers_iff (h : d.Records ds requests chosen) {r : ProductionRequest} :
    Declaration.Covers ds r ↔ ∃ p, d.resolve r = .ok p := by
  have hlhs : r.lhs ∈ Declaration.namesOf false ds ↔ ∃ id, d.Names (.nonterminal id) r.lhs := by
    rw [← h.nonterminals, List.mem_iff_getElem?]
    rfl
  have hrhs : (∀ n ∈ r.rhs, n ∈ ds.map Declaration.name) ↔
      ∃ symbols, List.Forall₂ d.Names symbols r.rhs := by
    simp only [exists_forall₂_iff, exists_names_iff, h.terminals, h.nonterminals,
      Declaration.mem_namesOf_or]
  simp only [Declaration.Covers, hlhs, hrhs, h.resolve_eq_ok_iff]
  constructor
  · rintro ⟨⟨lhs, hl⟩, rhs, hr⟩
    exact ⟨⟨r.kind, lhs, rhs, r.name⟩, rfl, rfl, hl, hr⟩
  · rintro ⟨p, hp⟩
    exact ⟨⟨p.lhs, hp.lhs⟩, p.rhs, hp.rhs⟩

end GrammarDraft

namespace Grammar

variable {g : Grammar}

def requestOf (g : Grammar) (p : Production) : ProductionRequest where
  kind := p.kind
  lhs := g.symbolName (.nonterminal p.lhs)
  rhs := p.rhs.map g.symbolName
  name := p.name

/-- The grammar and the reports are what the calls ask for. -/
structure Realises (g : Grammar) (reports : List Diagnostic) (calls : List DraftCall) : Prop where
  terminals : g.terminals = Declaration.namesOf true (DraftCall.declared calls)
  nonterminals : g.nonterminals = Declaration.namesOf false (DraftCall.declared calls)
  /-- No name is repeated within or across the two lists. -/
  nodup : (g.terminals ++ g.nonterminals).Nodup
  productions : g.productions.map g.requestOf =
    (DraftCall.kept calls).map fun r => { r with location := none }
  wellFormed : ∀ p ∈ g.productions, g.WellFormed p
  start_lt : g.start < g.nonterminals.length
  start : ∃ name, DraftCall.startName? calls = some name ∧
    g.symbolName (.nonterminal g.start) = name
  errors : ∀ r ∈ reports, r.isError = true
  reports : reports.length = (Declaration.repeated (DraftCall.declared calls)).length +
    (DraftCall.dropped calls).length

end Grammar

namespace GrammarDraft

variable {d : GrammarDraft} {ds : List Declaration} {requests : List ProductionRequest}
  {chosen : Option String} {g : Grammar}

theorem Names.declares {s : Symbol} {name : String} (ht : g.terminals = d.terminals)
    (hn : g.nonterminals = d.nonterminals) (h : d.Names s name) :
    g.Declares s ∧ g.symbolName s = name := by
  cases s with
  | terminal id => exact Grammar.declares_terminal (ht ▸ h)
  | nonterminal id => exact Grammar.declares_nonterminal (hn ▸ h)

theorem Answers.wellFormed_and_requestOf {p : Production} {r : ProductionRequest}
    (ht : g.terminals = d.terminals) (hn : g.nonterminals = d.nonterminals) (h : d.Answers p r) :
    g.WellFormed p ∧ g.requestOf p = { r with location := none } := by
  obtain ⟨hlhs, hlhsName⟩ := h.lhs.declares ht hn
  obtain ⟨hrhs, hrhsNames⟩ :=
    (List.forall₂_and_left _ _).1 (h.rhs.imp fun _ _ hs => hs.declares ht hn)
  rw [← List.forall₂_map_left_iff (R := Eq), List.forall₂_eq_eq_eq] at hrhsNames
  refine ⟨⟨hlhs, hrhs⟩, ?_⟩
  rw [Grammar.requestOf, hrhsNames, hlhsName, h.kind, h.name]

/-- A request with declared names is answered, any other one is refused. -/
theorem Records.resolve_cases (h : d.Records ds requests chosen) (r : ProductionRequest) :
    (Declaration.Covers ds r ∧ ∃ p, d.resolve r = .ok p ∧ d.Answers p r) ∨
      (¬ Declaration.Covers ds r ∧ ∃ defect, d.resolve r = .error defect) := by
  cases hr : d.resolve r with
  | ok p => exact .inl ⟨h.covers_iff.2 ⟨p, hr⟩, p, rfl, h.resolve_eq_ok_iff.1 hr⟩
  | error defect =>
    refine .inr ⟨fun hc => ?_, defect, rfl⟩
    obtain ⟨p, hp⟩ := h.covers_iff.1 hc
    simp [hr] at hp

theorem Records.answers_filterMap (h : d.Records ds requests chosen) (rs : List ProductionRequest) :
    List.Forall₂ d.Answers (rs.filterMap fun r => (d.resolve r).toOption)
      (rs.filter fun r => Declaration.Covers ds r) := by
  induction rs with
  | nil => exact .nil
  | cons r rs ih =>
    rcases h.resolve_cases r with ⟨hc, p, hp, hanswers⟩ | ⟨hc, defect, he⟩
    · rw [List.filterMap_cons_some (by rw [hp]; rfl), List.filter_cons_of_pos (by simpa using hc)]
      exact .cons hanswers ih
    · rwa [List.filterMap_cons_none (by rw [he]; rfl), List.filter_cons_of_neg (by simpa using hc)]

theorem Records.answers_productions (h : d.Records ds requests chosen) :
    List.Forall₂ d.Answers d.productions (requests.filter fun r => Declaration.Covers ds r) := by
  rw [productions, h.requests]
  exact h.answers_filterMap requests

/-- Each repeated declaration and each dropped request is reported once. -/
theorem Records.length_reports (h : d.Records ds requests chosen) :
    d.reports.length = (Declaration.repeated ds).length +
      (requests.filter fun r => ¬ Declaration.Covers ds r).length := by
  rw [reports, List.length_append, List.length_map, h.duplicates, List.length_map, h.requests,
    List.length_filterMap_eq_countP, ← List.countP_eq_length_filter]
  refine congrArg _ (List.countP_congr fun r _ => ?_)
  rcases h.resolve_cases r with ⟨hc, p, hp, -⟩ | ⟨hc, defect, he⟩
  · simp [hc, hp]
  · simp [hc, he]

theorem isError_of_mem_reports {report : Diagnostic} (h : report ∈ d.reports) :
    report.isError = true := by
  rcases List.mem_append.1 h with h | h
  · obtain ⟨name, -, rfl⟩ := List.mem_map.1 h
    rfl
  · obtain ⟨r, -, hr⟩ := List.mem_filterMap.1 h
    split at hr
    · cases hr
    · cases hr
      rfl

/-- The start symbol is the one that was chosen, or else the first left-hand side that was kept. -/
theorem Records.exists_name_startSymbol (h : d.Records ds requests chosen) {start : Nat}
    (hstart : d.startSymbol = .ok start) :
    ∃ name, d.nonterminals[start]? = some name ∧ chosen.or
      ((requests.filter fun r => Declaration.Covers ds r).head?.map ProductionRequest.lhs) =
        some name := by
  rw [startSymbol, h.start] at hstart
  cases chosen with
  | some name =>
    cases hs : d.symbol? name with
    | none => simp [hs] at hstart
    | some s =>
      cases s with
      | terminal id => simp [hs] at hstart
      | nonterminal id =>
        simp only [hs, Except.ok.injEq] at hstart
        subst hstart
        exact ⟨name, h.symbol?_eq_some.1 hs, rfl⟩
  | none =>
    have hanswers := h.answers_productions
    cases hp : d.productions with
    | nil => simp [hp] at hstart
    | cons p ps =>
      simp only [hp, Except.ok.injEq] at hstart
      subst hstart
      rw [hp] at hanswers
      obtain ⟨r, rs, hr, -, hkept⟩ := List.forall₂_cons_left_iff.1 hanswers
      exact ⟨r.lhs, hr.lhs, by rw [hkept]; rfl⟩

theorem Records.exists_startSymbol_iff (h : d.Records ds requests chosen) :
    (∃ start, d.startSymbol = .ok start) ↔
      (∀ name, chosen = some name → name ∈ Declaration.namesOf false ds) ∧
        (chosen = none → ∃ r ∈ requests, Declaration.Covers ds r) := by
  rw [startSymbol, h.start]
  cases chosen with
  | some name =>
    have hname : name ∈ Declaration.namesOf false ds ↔
        ∃ id, d.symbol? name = some (.nonterminal id) := by
      simp only [← h.nonterminals, List.mem_iff_getElem?, h.symbol?_eq_some]
      rfl
    simp only [Option.some.injEq, forall_eq', hname, reduceCtorEq, false_imp_iff, and_true]
    cases d.symbol? name with
    | none => simp
    | some s => cases s <;> simp
  | none =>
    have hanswers := h.answers_productions
    cases hp : d.productions with
    | nil =>
      rw [hp, List.forall₂_nil_left_iff, List.filter_eq_nil_iff] at hanswers
      simpa using hanswers
    | cons p ps =>
      rw [hp] at hanswers
      obtain ⟨r, rs, -, -, hkept⟩ := List.forall₂_cons_left_iff.1 hanswers
      have hr : r ∈ requests.filter fun r => Declaration.Covers ds r := by simp [hkept]
      simpa using ⟨r, by simpa using hr⟩

theorem build_eq_ok {reports : List Diagnostic} (h : d.build = (.ok g, reports)) :
    d.startSymbol = .ok g.start ∧ g.terminals = d.terminals ∧ g.nonterminals = d.nonterminals ∧
      g.productions = d.productions ∧ reports = d.reports := by
  rw [build, Prod.mk.injEq] at h
  obtain ⟨hgrammar, rfl⟩ := h
  cases hstart : d.startSymbol with
  | error e => simp [hstart, Except.map] at hgrammar
  | ok start =>
    simp only [hstart, Except.map, Except.ok.injEq] at hgrammar
    subst hgrammar
    exact ⟨rfl, rfl, rfl, rfl, rfl⟩

/-- A draft can be finished exactly if the chosen start symbol is a declared non-terminal or, where
none was chosen, some request is kept. -/
theorem exists_build_iff (calls : List DraftCall) :
    (∃ g reports, (DraftCall.draft calls).build = (.ok g, reports)) ↔
      (∀ name, DraftCall.chosen? calls = some name →
        name ∈ Declaration.namesOf false (DraftCall.declared calls)) ∧
      (DraftCall.chosen? calls = none →
        ∃ r ∈ DraftCall.requested calls, Declaration.Covers (DraftCall.declared calls) r) := by
  rw [← (records_draft calls).exists_startSymbol_iff]
  constructor
  · rintro ⟨g, reports, h⟩
    exact ⟨g.start, (build_eq_ok h).1⟩
  · rintro ⟨start, hstart⟩
    exact ⟨_, _, by rw [build, hstart]; rfl⟩

/-- What any sequence of calls makes. -/
theorem realises_of_build {calls : List DraftCall} {reports : List Diagnostic}
    (h : (DraftCall.draft calls).build = (.ok g, reports)) : g.Realises reports calls := by
  have hrecords := records_draft calls
  obtain ⟨hstart, ht, hn, hproductions, rfl⟩ := build_eq_ok h
  obtain ⟨name, hnamed, hname⟩ := hrecords.exists_name_startSymbol hstart
  have hdeclared : (DraftCall.draft calls).Names (.nonterminal g.start) name := hnamed
  obtain ⟨hlt, hstartName⟩ := hdeclared.declares ht hn
  obtain ⟨hwell, hrequests⟩ := (List.forall₂_and_left _ _).1
    (hrecords.answers_productions.imp fun _ _ h => h.wellFormed_and_requestOf ht hn)
  rw [← List.forall₂_map_right_iff, ← List.forall₂_map_left_iff (R := Eq), List.forall₂_eq_eq_eq]
    at hrequests
  exact {
    terminals := ht.trans hrecords.terminals
    nonterminals := hn.trans hrecords.nonterminals
    nodup := by
      rw [ht, hn, hrecords.terminals, hrecords.nonterminals,
        (Declaration.namesOf_append_perm _).nodup_iff]
      exact Declaration.nodup_names_firsts _
    productions := hproductions ▸ hrequests
    wellFormed := hproductions ▸ hwell
    start_lt := hlt
    start := ⟨name, hname, hstartName⟩
    errors := fun _ => isError_of_mem_reports
    reports := hrecords.length_reports }

/-- Names used before they are declared, one declared as both sorts, and requests that cannot be
followed. -/
def tangledCalls : List DraftCall :=
  [.production "S" ["A", "x"], .terminals ["x", "y"], .nonterminals ["S", "x"], .nonterminal "A",
    .terminal "A", .productionWith .auxiliary "A" ["y"] (some "leaf"),
    .productionAt "x" ["y"] ⟨1, 2⟩, .production "A" ["z"], .start "A"]

def tangledGrammar : Grammar where
  terminals := ["x", "y"]
  nonterminals := ["S", "A"]
  start := 1
  productions :=
    [⟨.normal, 0, [.nonterminal 1, .terminal 0], none⟩, ⟨.auxiliary, 1, [.terminal 1], some "leaf"⟩]

def tangledReports : List Diagnostic :=
  [.error "duplicate symbol `x`" none, .error "duplicate symbol `A`" none,
    .error "terminal `x` used as a left-hand side" (some ⟨1, 2⟩),
    .error "undefined symbol `z` in rule for `A`" none]

theorem realises_tangled :
    (DraftCall.draft tangledCalls).build = (.ok tangledGrammar, tangledReports) ∧
      tangledGrammar.Realises tangledReports tangledCalls :=
  have hbuild : (DraftCall.draft tangledCalls).build = (.ok tangledGrammar, tangledReports) := rfl
  ⟨hbuild, realises_of_build hbuild⟩

end GrammarDraft

end SyntaxTables
