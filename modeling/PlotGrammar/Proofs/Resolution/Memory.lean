import Mathlib.Data.List.Nodup
import PlotGrammar.Proofs.Resolution.Order

/-! # Resolvers

  A resolver remembers the types that it has inferred, and keeps them from one
  call to the next, also if a call fails midway. What it remembers is exact:
  the types are those of the columns, and the fields are those that were
  reached without a declared type (`Resolver.Remembers`). Every call keeps this
  (`Remembers.serve`), and so does every run of calls. Hence a resolver answers
  every call as if it were its first one (`answers_of_serveAll`).
-/

namespace PlotGrammar

/-! ### Fields that are reached -/

/-- Resolving a definition infers the type of a field. -/
def Definition.Reaches (table : Table) (d : Definition) (name : String) : Prop :=
  d = .field name none ∧ table.hasField name = true

/-- Resolving bindings in turn gets as far as to infer the type of a field. -/
def ReachesAmong (table : Table) (bindings : List (Channel × Definition)) (name : String) : Prop :=
  ∃ before c d after, bindings = before ++ (c, d) :: after ∧ d.Reaches table name ∧
    ∀ b ∈ before, b.2.IsFoundIn table

theorem not_reachesAmong_nil {table : Table} {name : String} : ¬ ReachesAmong table [] name := by
  rintro ⟨before, c, d, after, hnil, -⟩
  simp at hnil

/-- The first definition must be found for those after it to be reached. -/
theorem reachesAmong_cons_iff {table : Table} {c : Channel} {d : Definition}
    {bindings : List (Channel × Definition)} {name : String} :
    ReachesAmong table ((c, d) :: bindings) name ↔
      d.Reaches table name ∨ d.IsFoundIn table ∧ ReachesAmong table bindings name := by
  constructor
  · rintro ⟨before, c', d', after, hbindings, hreaches, hbefore⟩
    rcases List.cons_eq_append_iff.1 hbindings with ⟨rfl, hfirst⟩ | ⟨before, rfl, rfl⟩
    · cases hfirst
      exact .inl hreaches
    · obtain ⟨hfound, hbefore⟩ := List.forall_mem_cons.1 hbefore
      exact .inr ⟨hfound, before, c', d', after, rfl, hreaches, hbefore⟩
  · rintro (hreaches | ⟨hfound, before, c', d', after, rfl, hreaches, hbefore⟩)
    · exact ⟨[], c, d, bindings, rfl, hreaches, by simp⟩
    · exact ⟨(c, d) :: before, c', d', after, rfl, hreaches, List.forall_mem_cons.2 ⟨hfound, hbefore⟩⟩

/-- Resolving channels gets as far as to infer the type of a field: the field
    is bound without a type, and the channels before it are found. -/
theorem reachesAmong_toList_iff {table : Table} {m : Channels} {name : String} :
    ReachesAmong table m.toList name ↔
      ∃ c d, m.get? c = some d ∧ d.Reaches table name ∧
        ∀ c' d', c'.Precedes c → m.get? c' = some d' → d'.IsFoundIn table := by
  constructor
  · rintro ⟨before, c, d, after, hlist, hreaches, hbefore⟩
    refine ⟨c, d, ChannelMap.mem_toList.1 (by simp [hlist]), hreaches, ?_⟩
    intro c' d' hprecedes hd'
    exact hbefore _ ((ChannelMap.mem_before_iff hlist).2 ⟨hprecedes, hd'⟩)
  · rintro ⟨c, d, hd, hreaches, hbefore⟩
    obtain ⟨before, after, hlist⟩ := List.append_of_mem (ChannelMap.mem_toList.2 hd)
    refine ⟨before, c, d, after, hlist, hreaches, ?_⟩
    intro ⟨c', d'⟩ hmem
    obtain ⟨hprecedes, hd'⟩ := (ChannelMap.mem_before_iff hlist).1 hmem
    exact hbefore c' d' hprecedes hd'

namespace Resolver

/-! ### Calls -/

/-- A call of a resolver. -/
inductive Request where
  | definition (d : Definition)
  | encoding (inherited : Channels) (own : Encoding)

/-- What a call gives. -/
inductive Answer where
  | definition (result : Except Failure Binding)
  | encoding (result : Except Failure ResolvedEncoding)

/-- Answer a call. -/
def serve (r : Resolver) : Request → Answer × Resolver
  | .definition d =>
    let (result, r) := r.resolveDefinition d
    (.definition result, r)
  | .encoding inherited own =>
    let (result, r) := r.resolve inherited own
    (.encoding result, r)

/-- Answer one call after the other. -/
def serveAll (r : Resolver) : List Request → List Answer × Resolver
  | [] => ([], r)
  | request :: requests =>
    let (answer, r) := r.serve request
    let (answers, r) := r.serveAll requests
    (answer :: answers, r)

/-- The answer without memory. -/
def Request.answer (table : Table) : Request → Answer
  | .definition d => .definition (d.resolve table)
  | .encoding inherited own => .encoding (PlotGrammar.resolve table inherited own)

/-- What the answer to a call is to be. -/
def Request.IsAnswered (table : Table) : Request → Answer → Prop
  | .definition d, .definition result => d.Resolves table result
  | .encoding inherited own, .encoding result => Resolves table inherited own result
  | _, _ => False

/-- A call gets as far as to infer the type of a field. -/
def Request.Reaches (table : Table) (name : String) : Request → Prop
  | .definition d => d.Reaches table name
  | .encoding inherited own =>
    ∃ c d, (inherit inherited own).get? c = some d ∧ d.Reaches table name ∧
      ∀ c' d', c'.Precedes c → (inherit inherited own).get? c' = some d' → d'.IsFoundIn table

theorem Request.isAnswered_answer (table : Table) (request : Request) :
    request.IsAnswered table (request.answer table) := by
  cases request with
  | definition d => exact d.resolves_resolve table
  | encoding inherited own => exact resolves_resolve table inherited own

/-! ### What is remembered -/

/-- A resolver remembers the types of the fields that have been reached, each
    once, and of no others. -/
structure Remembers (table : Table) (reached : String → Prop) (r : Resolver) : Prop where
  table_eq : r.table = table
  /-- The types are those of the columns, not declared ones. -/
  inferred : ∀ entry ∈ r.inferred, entry.2 = table.inferType entry.1
  nodup : (r.inferred.map Prod.fst).Nodup
  mem_iff : ∀ name, name ∈ r.inferred.map Prod.fst ↔ reached name

/-- A new resolver remembers nothing. -/
theorem remembers_new (table : Table) : Remembers table (fun _ => False) ⟨table, []⟩ :=
  ⟨rfl, by simp, List.nodup_nil, by simp⟩

section

variable {table : Table} {reached : String → Prop} {r : Resolver}

/-- Only what has been reached matters. -/
theorem Remembers.congr {reached' : String → Prop} (h : Remembers table reached r)
    (hiff : ∀ name, reached name ↔ reached' name) : Remembers table reached' r :=
  ⟨h.table_eq, h.inferred, h.nodup, fun name => (h.mem_iff name).trans (hiff name)⟩

/-- The type of a field is that of its column, whether remembered or not. -/
theorem Remembers.typeOf (h : Remembers table reached r) (field : String) :
    (r.typeOf field).1 = table.inferType field ∧
      Remembers table (fun name => reached name ∨ name = field) (r.typeOf field).2 := by
  unfold Resolver.typeOf
  cases hlookup : r.inferred.lookup field with
  | some type =>
    have hmem : (field, type) ∈ r.inferred := mem_of_lookup hlookup
    refine ⟨h.inferred _ hmem, h.congr ?_⟩
    intro name
    have hreached : reached field := (h.mem_iff field).1 (List.mem_map_of_mem hmem)
    constructor
    · exact .inl
    · rintro (hname | rfl)
      · exact hname
      · exact hreached
  | none =>
    have hnew : field ∉ r.inferred.map Prod.fst := by
      intro hmem
      obtain ⟨entry, hentry, rfl⟩ := List.mem_map.1 hmem
      have hne := List.lookup_eq_none_iff.1 hlookup entry hentry
      simp at hne
    show r.table.inferType field = _ ∧ Remembers _ _ ⟨r.table, r.inferred ++ [_]⟩
    rw [h.table_eq]
    refine ⟨rfl, rfl, ?_, ?_, ?_⟩
    · intro entry hentry
      rcases List.mem_append.1 hentry with hentry | hentry
      · exact h.inferred entry hentry
      · rw [List.mem_singleton.1 hentry]
    · rw [List.map_append, List.map_singleton, ← List.concat_eq_append]
      exact List.Nodup.concat hnew h.nodup
    · intro name
      rw [List.map_append, List.mem_append, h.mem_iff, List.map_singleton, List.mem_singleton]

/-- A definition is resolved as without memory, and its field is remembered if
    its type was not declared. -/
theorem Remembers.resolveDefinition (h : Remembers table reached r) (d : Definition) :
    (r.resolveDefinition d).1 = d.resolve table ∧
      Remembers table (fun name => reached name ∨ d.Reaches table name)
        (r.resolveDefinition d).2 := by
  have hstay : (∀ name, ¬ d.Reaches table name) →
      Remembers table (fun name => reached name ∨ d.Reaches table name) r := by
    intro hnone
    exact h.congr fun name => by simp [hnone name]
  cases d with
  | literal value => exact ⟨rfl, hstay fun name hreaches => by cases hreaches.1⟩
  | field field type =>
    unfold Resolver.resolveDefinition
    dsimp only
    rw [Definition.resolve, h.table_eq]
    by_cases hfield : table.hasField field = true
    · rw [if_pos hfield, if_pos hfield]
      cases type with
      | some type => exact ⟨rfl, hstay fun name hreaches => by cases hreaches.1⟩
      | none =>
        obtain ⟨htype, hremembers⟩ := h.typeOf field
        refine ⟨congrArg (fun type => Except.ok (Binding.field field type)) htype,
          hremembers.congr ?_⟩
        intro name
        have hreaches : Definition.Reaches table (.field field none) name ↔ name = field := by
          unfold Definition.Reaches
          constructor
          · rintro ⟨heq, -⟩
            cases heq
            rfl
          · rintro rfl
            exact ⟨rfl, hfield⟩
        rw [hreaches]
    · rw [if_neg hfield, if_neg hfield]
      refine ⟨rfl, hstay ?_⟩
      rintro name ⟨heq, hname⟩
      cases heq
      exact hfield hname

/-- Channels are resolved as without memory. If one of them fails, what was
    reached before it is remembered. -/
theorem Remembers.resolveChannels (h : Remembers table reached r)
    (bindings : List (Channel × Definition)) :
    (r.resolveChannels bindings).1 =
        (bindings.mapM fun b => do return (b.1, ← b.2.resolve table)) ∧
      Remembers table (fun name => reached name ∨ ReachesAmong table bindings name)
        (r.resolveChannels bindings).2 := by
  induction bindings generalizing r reached with
  | nil => exact ⟨rfl, h.congr fun name => by simp [not_reachesAmong_nil]⟩
  | cons b bindings ih =>
    obtain ⟨c, d⟩ := b
    obtain ⟨hresult, hfirst⟩ := h.resolveDefinition d
    rw [Resolver.resolveChannels, List.mapM_cons]
    generalize r.resolveDefinition d = first at hresult hfirst
    obtain ⟨result, r'⟩ := first
    dsimp only at hresult hfirst
    subst hresult
    cases hd : d.resolve table with
    | error failure =>
      refine ⟨rfl, hfirst.congr ?_⟩
      -- What comes after a failure is not reached.
      intro name
      obtain ⟨field, hfield, hmissing, -⟩ := Definition.resolve_eq_error_iff.1 hd
      have hlost : ¬ d.IsFoundIn table := by
        intro hfound
        rw [hfound field hfield] at hmissing
        cases hmissing
      simp [reachesAmong_cons_iff, hlost]
    | ok binding =>
      have hfound : d.IsFoundIn table := (Definition.resolve_eq_ok_iff.1 hd).1
      obtain ⟨hrest, hremembers⟩ := ih hfirst
      have hreached : Remembers table
          (fun name => reached name ∨ ReachesAmong table ((c, d) :: bindings) name)
          (r'.resolveChannels bindings).2 := by
        refine hremembers.congr fun name => ?_
        rw [reachesAmong_cons_iff, or_assoc, and_iff_right hfound]
      dsimp only
      generalize r'.resolveChannels bindings = rest at hrest hreached
      obtain ⟨result, r''⟩ := rest
      dsimp only at hrest
      rw [← hrest]
      cases result with
      | error failure => exact ⟨rfl, hreached⟩
      | ok bindings => exact ⟨rfl, hreached⟩

/-- The channels of a node are resolved as without memory. -/
theorem Remembers.resolve (h : Remembers table reached r) (inherited : Channels) (own : Encoding) :
    (r.resolve inherited own).1 = PlotGrammar.resolve table inherited own ∧
      Remembers table
        (fun name => reached name ∨ ReachesAmong table (inherit inherited own).toList name)
        (r.resolve inherited own).2 := by
  obtain ⟨hresult, hremembers⟩ := h.resolveChannels (inherit inherited own).toList
  unfold Resolver.resolve PlotGrammar.resolve ChannelMap.mapM
  generalize r.resolveChannels (inherit inherited own).toList = resolved at hresult hremembers
  obtain ⟨result, r'⟩ := resolved
  dsimp only at hresult hremembers
  rw [← hresult]
  cases result with
  | error failure => exact ⟨rfl, hremembers⟩
  | ok bindings => exact ⟨rfl, hremembers⟩

/-- A call is answered as without memory, and adds what it reaches. -/
theorem Remembers.serve (h : Remembers table reached r) (request : Request) :
    (r.serve request).1 = request.answer table ∧
      Remembers table (fun name => reached name ∨ request.Reaches table name)
        (r.serve request).2 := by
  cases request with
  | definition d =>
    obtain ⟨hresult, hremembers⟩ := h.resolveDefinition d
    exact ⟨congrArg Answer.definition hresult, hremembers⟩
  | encoding inherited own =>
    obtain ⟨hresult, hremembers⟩ := h.resolve inherited own
    refine ⟨congrArg Answer.encoding hresult, hremembers.congr fun name => ?_⟩
    rw [reachesAmong_toList_iff]
    rfl

/-- So is every call of a run. -/
theorem Remembers.serveAll (h : Remembers table reached r) (requests : List Request) :
    (r.serveAll requests).1 = requests.map (Request.answer table) ∧
      Remembers table (fun name => reached name ∨ ∃ request ∈ requests, request.Reaches table name)
        (r.serveAll requests).2 := by
  induction requests generalizing r reached with
  | nil => exact ⟨rfl, h.congr fun name => by simp⟩
  | cons request requests ih =>
    obtain ⟨hanswer, hfirst⟩ := h.serve request
    obtain ⟨hanswers, hrest⟩ := ih hfirst
    refine ⟨?_, hrest.congr fun name => ?_⟩
    · show (r.serve request).1 :: ((r.serve request).2.serveAll requests).1 = _
      rw [hanswer, hanswers, List.map_cons]
    · rw [or_assoc, List.exists_mem_cons_iff]

end

/-! ### Runs of calls -/

/-- Whatever a resolver is called for, failing calls included, it answers every
    call as a new one does, and that is what the call is to give. Then it has
    inferred the types of as many fields as different ones were reached. -/
theorem answers_of_serveAll (table : Table) (requests : List Request) :
    (serveAll ⟨table, []⟩ requests).1 =
        requests.map (fun request => (serve ⟨table, []⟩ request).1) ∧
    (∀ request : Request, request.IsAnswered table (serve ⟨table, []⟩ request).1) ∧
    ∃ names : List String, names.Nodup ∧
      (∀ name, name ∈ names ↔ ∃ request ∈ requests, request.Reaches table name) ∧
      (serveAll ⟨table, []⟩ requests).2.cached = names.length := by
  have hnew := remembers_new table
  obtain ⟨hanswers, hremembers⟩ := hnew.serveAll requests
  refine ⟨?_, ?_, _, hremembers.nodup, ?_, ?_⟩
  · rw [hanswers]
    exact List.map_congr_left fun request _ => (hnew.serve request).1.symm
  · intro request
    rw [(hnew.serve request).1]
    exact request.isAnswered_answer table
  · intro name
    rw [hremembers.mem_iff, false_or]
  · exact (List.length_map _).symm

/-- A call that fails at the second channel has inferred the type of the first,
    which the next calls neither change nor infer again. -/
example : (serveAll ⟨⟨["foo"], []⟩, []⟩
    [.encoding .empty { x := some (.field "foo" none), y := some (.field "bar" none) },
      .definition (.field "foo" (some .quantitative)), .definition (.field "foo" none)]).2.inferred =
    [("foo", .ordinal)] := rfl

end Resolver

end PlotGrammar
