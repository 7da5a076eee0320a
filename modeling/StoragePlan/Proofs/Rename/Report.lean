import StoragePlan.Proofs.Rename.Nested

set_option autoImplicit false

namespace StoragePlan

structure StepSite where
  address : List Nat
  opType : String
  arg : Arg

namespace StepSite

def isHeld (site : StepSite) : Bool := site.arg.value.stepNet?.isSome

def event (site : StepSite) : Event := .stepNetRenamed site.opType site.arg.name

def error (site : StepSite) : PlanError := .unsupportedNesting site.opType site.arg.name

def under (site : StepSite) (number : Nat) : StepSite := { site with address := number :: site.address }

end StepSite

inductive StepSiteIn : List Op → StepSite → Prop
  | here {ops : List Op} {i j : Nat} {op : Op} {arg : Arg} (operation : ops[i]? = some op)
      (recurrent : op.isRecurrent = true) (argument : op.args[j]? = some arg)
      (expected : arg.isStepNet = true) : StepSiteIn ops ⟨[i, j], op.opType, arg⟩
  | inside {ops : List Op} {i j : Nat} {op : Op} {arg : Arg} {step : Net} {site : StepSite}
      (operation : ops[i]? = some op) (recurrent : op.isRecurrent = true)
      (argument : op.args[j]? = some arg) (expected : arg.isStepNet = true)
      (held : arg.value.stepNet? = some step) (below : StepSiteIn step.ops site) :
      StepSiteIn ops ((site.under j).under i)

inductive DoneBefore : List Nat → List Nat → Prop
  | inside (i : Nat) (address : List Nat) : DoneBefore (i :: address) []
  | less {i j : Nat} (less : i < j) (address address' : List Nat) : DoneBefore (i :: address) (j :: address')
  | along (i : Nat) {address address' : List Nat} (before : DoneBefore address address') :
      DoneBefore (i :: address) (i :: address')

theorem not_doneBefore_self (address : List Nat) : ¬ DoneBefore address address := by
  induction address with
  | nil => exact nofun
  | cons i rest ih =>
    intro before
    cases before with
    | less less => exact Nat.lt_irrefl i less
    | along _ before => exact ih before

section Sites

variable {α : Type} {places : α → StepSite → Prop} {within within' : StepSite → Prop}

structure ListsSites (within : StepSite → Prop) (sites : List StepSite) : Prop where
  mem_iff : ∀ site, site ∈ sites ↔ within site
  ordered : sites.Pairwise fun site other => DoneBefore site.address other.address

theorem ListsSites.nodup {sites : List StepSite} (lists : ListsSites within sites) : sites.Nodup := by
  refine lists.ordered.imp ?_
  rintro site _ before rfl
  exact not_doneBefore_self site.address before

def SiteOf (places : α → StepSite → Prop) (first : Nat) (items : List α) (site : StepSite) : Prop :=
  ∃ i item inner, items[i]? = some item ∧ places item inner ∧ site = inner.under (first + i)

theorem siteOf_nil {first : Nat} {site : StepSite} : ¬ SiteOf places first [] site := by
  simp [SiteOf]

theorem siteOf_cons {first : Nat} {item : α} {rest : List α} {site : StepSite} :
    SiteOf places first (item :: rest) site ↔
      (∃ inner, places item inner ∧ site = inner.under first) ∨ SiteOf places (first + 1) rest site := by
  constructor
  next =>
    intro place
    obtain ⟨i, other, inner, found, here, rfl⟩ := place
    cases i with
    | zero =>
      obtain rfl := Option.some.inj found
      exact .inl ⟨inner, here, rfl⟩
    | succ i => exact .inr ⟨i, other, inner, found, here, by rw [Nat.add_right_comm, Nat.add_assoc]⟩
  next =>
    intro either
    rcases either with ⟨inner, here, rfl⟩ | ⟨i, other, inner, found, here, rfl⟩
    next => exact ⟨0, item, inner, rfl, here, rfl⟩
    next => exact ⟨i + 1, other, inner, found, here, by rw [Nat.add_right_comm, Nat.add_assoc]⟩

theorem ListsSites.nil (nothing : ∀ site, ¬ within site) : ListsSites within [] :=
  ⟨fun site => iff_of_false List.not_mem_nil (nothing site), .nil⟩

theorem ListsSites.congr {sites : List StepSite} (lists : ListsSites within sites)
    (same : ∀ site, within' site ↔ within site) : ListsSites within' sites :=
  ⟨fun site => (lists.mem_iff site).trans (same site).symm, lists.ordered⟩

theorem ListsSites.cons {first : Nat} {item : α} {rest : List α} {sites sites' : List StepSite}
    (lists : ListsSites (places item) sites) (lists' : ListsSites (SiteOf places (first + 1) rest) sites') :
    ListsSites (SiteOf places first (item :: rest)) (sites.map (·.under first) ++ sites') := by
  constructor
  next =>
    intro site
    rw [siteOf_cons, List.mem_append, List.mem_map, lists'.mem_iff]
    simp only [lists.mem_iff, eq_comm]
  next =>
    refine List.pairwise_append.mpr ⟨?_, lists'.ordered, fun site here other later => ?_⟩
    next => exact List.pairwise_map.mpr (lists.ordered.imp fun before => .along first before)
    next =>
      obtain ⟨inner, -, rfl⟩ := List.mem_map.mp here
      obtain ⟨i, -, inner', -, -, rfl⟩ := (lists'.mem_iff other).mp later
      exact .less (by omega) _ _

theorem ListsSites.concat {sites : List StepSite} (lists : ListsSites within sites)
    (deep : ∀ site, within site → site.address ≠ []) (opType : String) (arg : Arg) :
    ListsSites (fun site => within site ∨ site = ⟨[], opType, arg⟩) (sites ++ [⟨[], opType, arg⟩]) := by
  constructor
  next => simp [lists.mem_iff]
  next =>
    refine List.pairwise_append.mpr ⟨lists.ordered, List.pairwise_singleton _ _, fun site here other last => ?_⟩
    obtain rfl := List.mem_singleton.mp last
    have below := deep site ((lists.mem_iff site).mp here)
    dsimp only
    cases same : site.address with
    | nil => exact absurd same below
    | cons i address => exact .inside i address

end Sites

def Arg.SiteAt (opType : String) (arg : Arg) (site : StepSite) : Prop :=
  arg.isStepNet = true ∧
    ((∃ step, arg.value.stepNet? = some step ∧ StepSiteIn step.ops site) ∨ site = ⟨[], opType, arg⟩)

def Op.SiteAt (op : Op) (site : StepSite) : Prop :=
  op.isRecurrent = true ∧ SiteOf (Arg.SiteAt op.opType) 0 op.args site

theorem stepSiteIn_iff {ops : List Op} {site : StepSite} :
    StepSiteIn ops site ↔ SiteOf Op.SiteAt 0 ops site := by
  constructor
  next =>
    intro place
    cases place with
    | here operation recurrent argument expected =>
      exact ⟨_, _, _, operation, ⟨recurrent, _, _, _, argument, ⟨expected, .inr rfl⟩, rfl⟩,
        by simp [StepSite.under]⟩
    | inside operation recurrent argument expected held below =>
      exact ⟨_, _, _, operation, ⟨recurrent, _, _, _, argument, ⟨expected, .inl ⟨_, held, below⟩⟩, rfl⟩,
        by simp [StepSite.under]⟩
  next =>
    intro place
    obtain ⟨i, op, inner, operation, ⟨recurrent, j, arg, inmost, argument, ⟨expected, either⟩, rfl⟩, rfl⟩ := place
    rw [Nat.zero_add, Nat.zero_add]
    rcases either with ⟨step, held, below⟩ | rfl
    next => exact .inside operation recurrent argument expected held below
    next => exact .here operation recurrent argument expected

theorem StepSiteIn.address_ne_nil {ops : List Op} {site : StepSite} (place : StepSiteIn ops site) :
    site.address ≠ [] := by
  cases place with
  | here => exact List.cons_ne_nil _ _
  | inside => exact List.cons_ne_nil _ _

section Journals

variable {α β γ : Type}

def errorOf? : Except PlanError α → Option PlanError
  | .ok _ => none
  | .error error => some error

structure Journal.Follows (journal : Journal α) (sites : List StepSite) : Prop where
  events : journal.events = (sites.takeWhile StepSite.isHeld).map StepSite.event
  errorOf? : errorOf? journal.outcome = (sites.find? fun site => !site.isHeld).map StepSite.error

def Journal.Reports (journal : Journal α) (within : StepSite → Prop) : Prop :=
  ∃ sites, ListsSites within sites ∧ journal.Follows sites

variable {journal : Journal α} {sites sites' : List StepSite} {within within' : StepSite → Prop}

theorem Journal.Follows.of_pure (found : α) : (pure found : Journal α).Follows [] := ⟨rfl, rfl⟩

theorem Journal.Follows.of_under (follows : journal.Follows sites) (number : Nat) :
    journal.Follows (sites.map (·.under number)) := by
  constructor
  next => rw [List.takeWhile_map, List.map_map]; exact follows.events
  next => rw [List.find?_map, Option.map_map]; exact follows.errorOf?

theorem held_of_ok (follows : journal.Follows sites) {found : α}
    (reached : journal.outcome = .ok found) : ∀ site ∈ sites, site.isHeld = true := by
  have none := follows.errorOf?
  rw [reached, StoragePlan.errorOf?, eq_comm, Option.map_eq_none_iff, List.find?_eq_none] at none
  simpa using none

theorem Journal.Follows.bind (follows : journal.Follows sites) {next : α → Journal β}
    (later : ∀ found, (next found).Follows sites') : (journal >>= next).Follows (sites ++ sites') := by
  cases reached : journal.outcome with
  | ok found =>
    have held := held_of_ok follows reached
    have all : sites.takeWhile StepSite.isHeld = sites := List.takeWhile_eq_self_iff.mpr held
    have none : (sites.find? fun site => !site.isHeld) = none := by simpa using held
    rw [Journal.bind_of_ok reached]
    constructor
    next => rw [List.takeWhile_append_of_pos held, List.map_append, follows.events, all, (later found).events]
    next => rw [List.find?_append, none, Option.none_or, (later found).errorOf?]
  | error error =>
    have stopped := follows.errorOf?
    rw [reached, StoragePlan.errorOf?, eq_comm, Option.map_eq_some_iff] at stopped
    have ⟨site, first, same⟩ := stopped
    rw [Journal.bind_of_error reached]
    constructor
    next =>
      have fewer : (sites.takeWhile StepSite.isHeld).length ≠ sites.length := by
        intro equal
        have all := List.takeWhile_eq_self_iff.mp ((List.takeWhile_prefix _).eq_of_length equal)
        have held := all site (List.mem_of_find?_eq_some first)
        have empty := List.find?_some first
        simp [held] at empty
      rw [List.takeWhile_append, if_neg fewer, follows.events]
    next => rw [List.find?_append, first, Option.some_or, Option.map_some, same]; rfl

theorem Journal.Reports.congr (reports : journal.Reports within) (same : ∀ site, within' site ↔ within site) :
    journal.Reports within' := by
  have ⟨sites, lists, follows⟩ := reports
  exact ⟨sites, lists.congr same, follows⟩

theorem Journal.Reports.of_pure (nothing : ∀ site, ¬ within site) (found : α) :
    (pure found : Journal α).Reports within := ⟨[], .nil nothing, .of_pure found⟩

theorem Journal.Reports.map (reports : journal.Reports within) (f : α → β) :
    (journal >>= fun found => pure (f found)).Reports within := by
  have ⟨sites, lists, follows⟩ := reports
  have later := follows.bind fun found => .of_pure (f found)
  rw [List.append_nil] at later
  exact ⟨sites, lists, later⟩

theorem Journal.Reports.cons {δ : Type} {places : δ → StepSite → Prop} {first : Nat} {item : δ}
    {rest : List δ} (reports : journal.Reports (places item)) {journal' : Journal β}
    (reports' : journal'.Reports (SiteOf places (first + 1) rest)) (f : α → β → γ) :
    (journal >>= fun found => journal' >>= fun found' => pure (f found found')).Reports
      (SiteOf places first (item :: rest)) := by
  have ⟨sites, lists, follows⟩ := reports
  have ⟨sites', lists', follows'⟩ := reports'
  have later (found : α) : (journal' >>= fun found' => pure (f found found')).Follows sites' := by
    have ended := follows'.bind fun found' => .of_pure (f found found')
    rwa [List.append_nil] at ended
  exact ⟨_, lists.cons lists', (follows.of_under first).bind later⟩

end Journals

section Renaming

variable {mapping : Renaming}

def Net.ReportsSites (mapping : Renaming) (step : Net) : Prop :=
  (renameStepNet mapping (renameText mapping) step).Reports (StepSiteIn step.ops)

theorem reports_renameValue {opType : String} {arg : Arg} (expected : arg.isStepNet = true)
    (inner : ∀ step, arg.value.stepNet? = some step → step.ReportsSites mapping) :
    Journal.Reports (do
      let value ← renameValue mapping (renameText mapping) opType arg.name arg.value
      Journal.emit (.stepNetRenamed opType arg.name)
      pure value) (arg.SiteAt opType) := by
  let site : StepSite := ⟨[], opType, arg⟩
  cases held : arg.value.stepNet? with
  | none =>
    have empty : site.isHeld = false := by simp [StepSite.isHeld, site, held]
    refine ⟨[site], ⟨fun other => ?_, List.pairwise_singleton _ _⟩, ?_⟩
    next => simp [Arg.SiteAt, expected, held, site]
    next =>
      rw [renameValue_of_no_stepNet held, Journal.bind_of_error rfl]
      constructor
      next => simp [empty, Journal.fail]
      next => simp [empty, errorOf?, StepSite.error, site]
  | some step =>
    have ⟨sites, lists, follows⟩ := inner step held
    have present : site.isHeld = true := by simp [StepSite.isHeld, site, held]
    have places (other : StepSite) :
        arg.SiteAt opType other ↔ StepSiteIn step.ops other ∨ other = site := by
      simp [Arg.SiteAt, expected, held, site]
    refine ⟨sites ++ [site], (lists.concat (fun _ => StepSiteIn.address_ne_nil) opType arg).congr places, ?_⟩
    rw [renameValue_of_stepNet held, Journal.bind_bind]
    refine follows.bind fun step' => ?_
    constructor
    next => simp [present]; rfl
    next => simp [present]; rfl

theorem reports_renameArgs (opType : String) {args : List Arg}
    (inner : ∀ arg ∈ args, arg.isStepNet = true → ∀ step, arg.value.stepNet? = some step →
      step.ReportsSites mapping) (first : Nat) :
    (renameArgs mapping (renameText mapping) opType args).Reports (SiteOf (Arg.SiteAt opType) first args) := by
  induction args generalizing first with
  | nil => exact .of_pure (fun site => siteOf_nil) _
  | cons arg rest ih =>
    have ⟨here, later⟩ := List.forall_mem_cons.mp inner
    obtain ⟨name, value⟩ := arg
    rw [renameArgs]
    split
    next expected =>
      have reports := (@reports_renameValue mapping opType ⟨name, value⟩ expected (here expected)).cons (ih later (first + 1))
        fun value rest => ⟨name, value⟩ :: rest
      simp only [Journal.bind_bind] at reports
      exact reports
    next other =>
      have nothing : (pure value : Journal Value).Reports (Arg.SiteAt opType ⟨name, value⟩) :=
        .of_pure (fun site place => other place.1) value
      exact nothing.cons (ih later (first + 1)) fun value rest => ⟨name, value⟩ :: rest

theorem reports_renameOps {ops : List Op}
    (inner : ∀ op ∈ ops, op.isRecurrent = true → ∀ arg ∈ op.args, arg.isStepNet = true →
      ∀ step, arg.value.stepNet? = some step → step.ReportsSites mapping) (first : Nat) :
    (renameOps mapping (renameText mapping) ops).Reports (SiteOf Op.SiteAt first ops) := by
  induction ops generalizing first with
  | nil => exact .of_pure (fun site => siteOf_nil) _
  | cons op rest ih =>
    have ⟨here, later⟩ := List.forall_mem_cons.mp inner
    obtain ⟨opType, inputs, outputs, args⟩ := op
    let renamed (args : List Arg) (rest : List Op) : List Op :=
      ⟨opType, inputs.map mapping.apply, outputs.map mapping.apply, args⟩ :: rest
    rw [renameOps]
    split
    next recurrent =>
      have reports := (reports_renameArgs opType (here recurrent) 0).map fun args' =>
        args' ++ renameNotes mapping (inputs ++ outputs) args'
      have present : ∀ site, Op.SiteAt ⟨opType, inputs, outputs, args⟩ site ↔
          SiteOf (Arg.SiteAt opType) 0 args site := fun site => and_iff_right recurrent
      have both := (reports.congr present).cons (ih later (first + 1)) renamed
      simp only [Journal.bind_bind] at both
      exact both
    next plain =>
      have nothing : (pure args : Journal (List Arg)).Reports (Op.SiteAt ⟨opType, inputs, outputs, args⟩) :=
        .of_pure (fun site place => plain place.1) args
      exact nothing.cons (ih later (first + 1)) renamed

theorem Net.reportsSites (mapping : Renaming) (net : Net) : net.ReportsSites mapping := by
  induction net using Net.carries_wellFounded.induction with
  | h net ih =>
    have inner (op : Op) (operation : op ∈ net.ops) (recurrent : op.isRecurrent = true) (arg : Arg)
        (argument : arg ∈ op.args) (expected : arg.isStepNet = true) (step : Net)
        (held : arg.value.stepNet? = some step) : step.ReportsSites mapping :=
      ih step ⟨arg.value, ⟨op, operation, recurrent, arg, argument, expected, rfl⟩, held⟩
    have reports := (reports_renameOps inner 0).congr fun site => stepSiteIn_iff
    obtain ⟨version, name, ops, inputs, outputs⟩ := net
    rw [Net.ReportsSites, renameStepNet]
    exact reports.map _

theorem Net.rename_reports (net : Net) (mapping : Renaming) :
    (net.rename mapping).Reports (StepSiteIn net.ops) := by
  have reports : (renameOps mapping (renameText mapping) net.ops).Reports (SiteOf Op.SiteAt 0 net.ops) :=
    reports_renameOps (fun _ _ _ _ _ _ step _ => step.reportsSites mapping) 0
  exact (reports.congr fun site => stepSiteIn_iff).map _

end Renaming

end StoragePlan
