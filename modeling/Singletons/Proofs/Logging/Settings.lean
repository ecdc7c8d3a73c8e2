import Mathlib.Data.List.Forall2
import Singletons.Logging.Service
/-!
# Settings and what they say

The section `log` of a document says for every tag which sinks it has and which threshold, if any.
This is said here without reference to a router: which sink a node describes, what the settings of
a tag spell out, and which documents can be applied as a whole.
-/

namespace Singletons

namespace Document

/-- A node has a scalar with this text under a key. -/
def Gives (node : Document) (key text : String) : Prop := node.get? key = .ok (some (.scalar text))

/-- A node has a scalar with this text under a key, or nothing there and the text is the default. -/
def GivesOr (node : Document) (key default text : String) : Prop :=
  node.Gives key text ∨ node.get? key = .ok none ∧ text = default

/-- A node has a number that is a size under a key. -/
def Counts (node : Document) (number? : String → Option Nat) (key : String) (n : Nat) : Prop :=
  ∃ value, node.get? key = .ok (some value) ∧ value.size? number? = some n

def key? : Document → Option String
  | scalar key => some key
  | _ => none

/-- The texts of the scalar keys. -/
def keys (entries : Entries) : List String := entries.filterMap (·.1.key?)

/-- Every entry stands under a scalar key of its own. -/
structure Keyed (entries : Entries) : Prop where
  scalar : ∀ entry ∈ entries, ∃ key, entry.1 = .scalar key
  distinct : (keys entries).Nodup

theorem text_eq_ok_iff {d : Document} {s : String} : d.text = .ok s ↔ d = .scalar s := by
  cases d <;> simp [text]

theorem size_eq_ok_iff {number? : String → Option Nat} {d : Document} {n : Nat} :
    d.size number? = .ok n ↔ d.size? number? = some n := by
  rw [size]
  cases d.size? number? <;> simp

/-- Only a map has something under a key. -/
theorem exists_entries_of_get? {root node : Document} {key : String}
    (found : root.get? key = .ok (some node)) :
    ∃ entries, root.entries = .ok entries ∧ child? key entries = some node := by
  cases root with
  | map entries => exact ⟨entries, rfl, by simpa [get?] using found⟩
  | _ => cases found

theorem key?_eq_some_iff {d : Document} {key : String} :
    d.key? = some key ↔ d = scalar key := by
  cases d <;> simp [key?]

theorem mem_keys {entries : Entries} {key : String} :
    key ∈ keys entries ↔ ∃ node, (scalar key, node) ∈ entries := by
  rw [keys, List.mem_filterMap]
  constructor
  · rintro ⟨⟨k, node⟩, h, same⟩
    obtain rfl := key?_eq_some_iff.mp same
    exact ⟨node, h⟩
  · rintro ⟨node, h⟩
    exact ⟨_, h, rfl⟩

theorem child?_eq_none_iff {entries : Entries} {key : String} :
    child? key entries = none ↔ key ∉ keys entries := by
  rw [mem_keys]
  fun_induction child? key entries with
  | case1 => simp
  | case2 node rest => simp
  | case3 text node rest other ih => simp [ih, Ne.symm other]
  | case4 entry rest other ih =>
    have apart (node : Document) : (scalar key, node) ≠ entry :=
      fun same => other key node same.symm
    simp [ih, apart]

/-- What is found under a key of its own does not depend on where its entry stands. -/
theorem child?_eq_some_iff {entries : Entries} (distinct : (keys entries).Nodup) {key : String}
    {node : Document} : child? key entries = some node ↔ (scalar key, node) ∈ entries := by
  fun_induction child? key entries with
  | case1 => simp
  | case2 found rest =>
    have alone : key ∉ keys rest := (List.nodup_cons.mp distinct).1
    have gone : (scalar key, node) ∉ rest := fun h => alone (mem_keys.mpr ⟨node, h⟩)
    simp [gone, eq_comm]
  | case3 text found rest other ih =>
    rw [ih (List.nodup_cons.mp distinct).2]
    simp [Ne.symm other]
  | case4 entry rest other ih =>
    have apart : (scalar key, node) ≠ entry := fun same => other key node same.symm
    have fewer : (keys rest).Nodup :=
      distinct.sublist ((List.sublist_cons_self entry rest).filterMap _)
    simp [ih fewer, apart]

theorem keys_perm {entries others : Entries} (perm : others.Perm entries) :
    (keys others).Perm (keys entries) :=
  perm.filterMap _

theorem Keyed.perm {entries others : Entries} (keyed : Keyed entries) (perm : others.Perm entries) :
    Keyed others :=
  ⟨fun entry h => keyed.scalar entry (perm.mem_iff.mp h),
    (keys_perm perm).nodup_iff.mpr keyed.distinct⟩

theorem child?_perm {entries others : Entries} (keyed : Keyed entries) (perm : others.Perm entries)
    (key : String) : child? key others = child? key entries := by
  apply Option.ext
  intro node
  rw [child?_eq_some_iff keyed.distinct,
    child?_eq_some_iff (keyed.perm perm).distinct, perm.mem_iff]

end Document

namespace Logging

open Document

/-- The sink that a node describes for a tag. One with a file is described only where the file can
be opened. -/
inductive Describes (host : Host) (tag : String) (node : Document) : Sink → Prop
  | console (kind : node.Gives "type" "console") : Describes host tag node .console
  | file {path : String} (kind : node.Gives "type" "file") (named : node.Gives "filename" path)
      (opens : host.obstacle? (.file path) = none) : Describes host tag node (.file path)
  | rotating {path : String} {size count : Nat} (kind : node.Gives "type" "rotating_file")
      (named : node.Gives "filename" path) (sized : node.Counts host.number? "max_size" size)
      (counted : node.Counts host.number? "max_files" count)
      (opens : host.obstacle? (.rotating path size count) = none) :
      Describes host tag node (.rotating path size count)
  | syslog {ident : String} (kind : node.Gives "type" "syslog")
      (named : node.GivesOr "ident" tag ident) : Describes host tag node (.syslog ident)
  | loki {url job : String} (kind : node.Gives "type" "loki") (located : node.Gives "url" url)
      (named : node.GivesOr "job" "singleton_registry" job) :
      Describes host tag node (.loki url job tag)

/-- A node met in a walk over the elements of a list, and the sink that it describes. -/
def Stands (host : Host) (tag : String) (element : Option Document) (sink : Sink) : Prop :=
  ∃ node, element = some node ∧ Describes host tag node sink

/-- What settings say about one tag. -/
structure Directive where
  sinks : List Sink := []
  threshold? : Option Severity := none

def ListsSinks (host : Host) (tag : String) (settings : Entries) (sinks : List Sink) : Prop :=
  match child? "sinks" settings with
  | some listed => List.Forall₂ (Stands host tag) listed.elements sinks
  | none => sinks = []

def SetsThreshold (settings : Entries) (threshold? : Option Severity) : Prop :=
  match child? "level" settings with
  | some word => ∃ text, word = .scalar text ∧ threshold? = some (.ofWord text)
  | none => threshold? = none

/-- A node spells out, item by item, what is said about a tag. -/
def Spells (host : Host) (tag : String) (node : Document) (d : Directive) : Prop :=
  ∃ settings, node.entries = .ok settings ∧ ListsSinks host tag settings d.sinks ∧
    SetsThreshold settings d.threshold?

/-- What a section says about a tag, which is nothing if it does not name the tag. -/
def Assigns (host : Host) (log : Entries) (tag : String) (d : Directive) : Prop :=
  match child? tag log with
  | some node => Spells host tag node d
  | none => d = {}

/-- What a section says about all tags and about each one. -/
structure Describing (host : Host) (log : Entries) (shared : Directive)
    (own : String → Directive) : Prop where
  shared : Assigns host log globalTag shared
  own : ∀ tag, tag ≠ globalTag → Assigns host log tag (own tag)

/-- An entry names a tag and spells out what is said about it. What stands under the global tag is
read apart. -/
def Directs (host : Host) (entry : Document × Document) (order : String × Directive) : Prop :=
  entry.1 = .scalar order.1 ∧ (order.1 ≠ globalTag → Spells host order.1 entry.2 order.2)

/-- What a section says about all tags, and what its entries say one after another. -/
structure Plan where
  shared : Directive
  orders : List (String × Directive)

def Plans (host : Host) (log : Document) (plan : Plan) : Prop :=
  ∃ entries, log.entries = .ok entries ∧ Assigns host entries globalTag plan.shared ∧
    List.Forall₂ (Directs host) entries plan.orders

/-- A document whose section `log`, if there is one, can be read to the end. -/
def Applicable (host : Host) (root : Document) : Prop :=
  ∃ entries, root.entries = .ok entries ∧
    ∀ log, child? "log" entries = some log → ∃ plan, Plans host log plan

/-- A tag has the sinks listed under it and the global ones, or the console if these are none, and
the threshold that is given for it, or else for all, or else the usual one. -/
def Directive.logger (own shared : Directive) : Logger where
  sinks := if (own.sinks ++ shared.sinks).isEmpty then [.console] else own.sinks ++ shared.sinks
  threshold := (own.threshold?.or shared.threshold?).getD .info

/-- Entries that can be read say something about every tag. -/
theorem exists_assigns_of_directs {host : Host} {log : Entries}
    {orders : List (String × Directive)} (direct : List.Forall₂ (Directs host) log orders)
    {tag : String} (other : tag ≠ globalTag) : ∃ d, Assigns host log tag d := by
  induction direct with
  | nil => exact ⟨{}, rfl⟩
  | @cons entry order log orders first _ ih =>
    obtain ⟨key, node⟩ := entry
    obtain ⟨rfl, spells⟩ := first
    simp only [Assigns, child?]
    by_cases same : order.1 = tag
    · rw [same] at spells
      rw [if_pos same]
      exact ⟨order.2, spells other⟩
    · rw [if_neg same]
      exact ih

namespace Describing

variable {host : Host} {log : Entries} {shared : Directive} {own : String → Directive}

theorem perm (describing : Describing host log shared own) (keyed : Keyed log) {others : Entries}
    (perm : others.Perm log) : Describing host others shared own := by
  have same {tag : String} {d : Directive} (assigns : Assigns host log tag d) :
      Assigns host others tag d := by
    rwa [Assigns, child?_perm keyed perm]
  exact ⟨same describing.shared, fun tag other => same (describing.own tag other)⟩

/-- With every tag under a key of its own, the entries say what the section says by tag. -/
theorem plans (describing : Describing host log shared own) (keyed : Keyed log) :
    Plans host (.map log) ⟨shared, (keys log).map fun tag => (tag, own tag)⟩ := by
  refine ⟨log, rfl, describing.shared, ?_⟩
  have direct : ∀ entry ∈ log, ∃ tag, entry.1 = scalar tag ∧
      (tag ≠ globalTag → Spells host tag entry.2 (own tag)) := by
    intro entry h
    obtain ⟨tag, named⟩ := keyed.scalar entry h
    refine ⟨tag, named, fun other => ?_⟩
    have found : child? tag log = some entry.2 :=
      (child?_eq_some_iff keyed.distinct).mpr (named ▸ h)
    have spells := describing.own tag other
    rwa [Assigns, found] at spells
  clear keyed describing
  induction log with
  | nil => exact .nil
  | cons entry log ih =>
    obtain ⟨⟨tag, named, spells⟩, rest⟩ := List.forall_mem_cons.mp direct
    obtain ⟨key, node⟩ := entry
    obtain rfl : key = scalar tag := named
    exact .cons ⟨rfl, spells⟩ (ih rest)

/-- Nothing is said about a tag that is not named. -/
theorem own_of_not_mem (describing : Describing host log shared own) {tag : String}
    (other : tag ≠ globalTag) (absent : tag ∉ keys log) : own tag = {} := by
  have assigns := describing.own tag other
  rwa [Assigns, child?_eq_none_iff.mpr absent] at assigns

end Describing

/-- A section from which a plan can be read says something about every tag. -/
theorem exists_describing {host : Host} {log : Entries} {plan : Plan}
    (plans : Plans host (.map log) plan) : ∃ shared own, Describing host log shared own := by
  obtain ⟨entries, shape, assigns, direct⟩ := plans
  obtain rfl : log = entries := by simpa [Document.entries] using shape
  have each (tag : String) : ∃ d, tag ≠ globalTag → Assigns host log tag d := by
    by_cases other : tag ≠ globalTag
    · obtain ⟨d, assigns⟩ := exists_assigns_of_directs direct other
      exact ⟨d, fun _ => assigns⟩
    · exact ⟨{}, fun h => absurd h other⟩
  choose own describes using each
  exact ⟨plan.shared, own, assigns, describes⟩

end Logging

end Singletons
