import AstXml.Proofs.Course
import AstXml.Proofs.Registry.History
import AstXml.Streaming

/-!
The start set. A name is cut at every leftmost `::`, and its pieces lead from the translation unit
through the bodies of the scopes on the way. All that a list of names leads to is wanted complete,
each entity once, in the order in which it is met first.
-/
namespace AstXml
open Outcome

/-- `found` are the values that `listed` gives at some position, in the order of the positions. -/
def Listing {ι α : Type} [LT ι] (listed : ι → α → Prop) (found : List α) : Prop :=
  ∃ entries : List (α × ι), entries.Pairwise (·.2 < ·.2) ∧
    (∀ a i, (a, i) ∈ entries ↔ listed i a) ∧ entries.map (·.1) = found

namespace Listing

variable {ι α : Type} [LT ι] {listed listed' : ι → α → Prop} {found : List α}

theorem congr (same : ∀ i a, listed i a ↔ listed' i a) (order : Listing listed found) :
    Listing listed' found := by
  obtain ⟨entries, sorted, members, values⟩ := order
  exact ⟨entries, sorted, fun a i => (members a i).trans (same i a), values⟩

theorem mem (order : Listing listed found) (a : α) : a ∈ found ↔ ∃ i, listed i a := by
  obtain ⟨entries, _, members, rfl⟩ := order
  simp only [List.mem_map, Prod.exists, exists_and_right, exists_eq_right, members]

theorem unique [Std.Asymm (α := ι) (· < ·)] {found' : List α} (order : Listing listed found)
    (order' : Listing listed found') : found = found' := by
  obtain ⟨entries, sorted, members, rfl⟩ := order
  obtain ⟨entries', sorted', members', rfl⟩ := order'
  -- no position comes before itself, so lists of the same entries are permutations
  have distinct : ∀ {es : List (α × ι)}, es.Pairwise (·.2 < ·.2) → es.Nodup := by
    intro es sorted
    refine sorted.imp fun {a b} before same => ?_
    subst same
    exact Std.Asymm.asymm _ _ before before
  have same : entries.Perm entries' := by
    rw [List.perm_ext_iff_of_nodup (distinct sorted) (distinct sorted')]
    rintro ⟨a, i⟩
    rw [members, members']
  rw [same.eq_of_pairwise (fun _ _ _ _ before after =>
    absurd after (Std.Asymm.asymm _ _ before)) sorted sorted']

theorem positions (xs : List α) : Listing (fun (i : Nat) a => xs[i]? = some a) xs :=
  ⟨xs.zipIdx, pairwise_zipIdx xs, fun _ _ => List.mk_mem_zipIdx_iff_getElem?,
    List.zipIdx_map_fst 0 xs⟩

theorem filterM {ε : Type} {test : α → Except ε Bool} (order : Listing listed found)
    (total : ∀ a ∈ found, ∃ b, test a = .ok b) {kept : List α}
    (filtered : found.filterM test = .ok kept) :
    Listing (fun i a => listed i a ∧ test a = .ok true) kept := by
  obtain ⟨entries, sorted, members, rfl⟩ := order
  cases (filterM_eq_ok total).symm.trans filtered
  refine ⟨entries.filter fun e => (test e.1).toOption == some true, sorted.filter _, ?_, ?_⟩
  · intro a i
    rw [List.mem_filter, members]
    refine and_congr_right fun _ => ?_
    cases test a <;> simp [Except.toOption]
  · rw [List.filter_map]
    rfl

/-- What the values of a list lead to, in one list. A path begins with the position of the value
that it goes through. -/
theorem flatten {β : Type} {leads : α → List ι → β → Prop} {results : List (List β)}
    (order : Listing listed found)
    (each : List.Forall₂ (fun a result => Listing (leads a) result) found results) :
    Listing (fun path b => ∃ i rest a, path = i :: rest ∧ listed i a ∧ leads a rest b)
      results.flatten := by
  obtain ⟨entries, sorted, members, rfl⟩ := order
  rw [List.forall₂_map_left_iff] at each
  simp only [← members]
  clear members
  -- on the values to go through: the paths through the first one precede all others
  induction each with
  | nil => exact ⟨[], .nil, by simp, rfl⟩
  | @cons entry result entries results here _ ih =>
    obtain ⟨a, i⟩ := entry
    obtain ⟨before, sorted⟩ := List.pairwise_cons.mp sorted
    obtain ⟨own, ownSorted, ownMembers, rfl⟩ := here
    obtain ⟨others, othersSorted, othersMembers, values⟩ := ih sorted
    refine ⟨own.map (fun e => (e.1, i :: e.2)) ++ others, ?_, ?_, ?_⟩
    · refine List.pairwise_append.mpr ⟨List.pairwise_map.mpr ?_, othersSorted, ?_⟩
      · exact ownSorted.imp fun less => List.cons_lt_cons_iff.mpr (.inr ⟨rfl, less⟩)
      · rintro e first ⟨b, path⟩ later
        obtain ⟨_, _, rfl⟩ := List.mem_map.mp first
        obtain ⟨j, rest, a', rfl, listed, _⟩ := (othersMembers b path).mp later
        exact List.cons_lt_cons_iff.mpr (.inl (before _ listed))
    · intro b path
      simp only [List.mem_append, List.mem_map, Prod.mk.injEq, Prod.exists, othersMembers,
        ownMembers, List.mem_cons]
      constructor
      · rintro (⟨_, rest, inner, rfl, rfl⟩ | ⟨j, rest, a', rfl, listed, inner⟩)
        · exact ⟨i, rest, a, rfl, .inl ⟨rfl, rfl⟩, inner⟩
        · exact ⟨j, rest, a', rfl, .inr listed, inner⟩
      · rintro ⟨j, rest, a', rfl, ⟨rfl, rfl⟩ | listed, inner⟩
        · exact .inl ⟨b, rest, inner, rfl, rfl⟩
        · exact .inr ⟨j, rest, a', rfl, listed, inner⟩
    · rw [List.map_append, List.map_map, values, List.flatten_cons]
      rfl

/-- Single positions as paths. -/
theorem single (order : Listing listed found) :
    Listing (fun path a => ∃ i, path = [i] ∧ listed i a) found := by
  obtain ⟨entries, sorted, members, rfl⟩ := order
  refine ⟨entries.map fun e => (e.1, [e.2]), List.pairwise_map.mpr ?_, ?_, ?_⟩
  · exact sorted.imp fun less => List.cons_lt_cons_iff.mpr (.inl less)
  · intro a path
    simp only [List.mem_map, Prod.mk.injEq, Prod.exists, members]
    constructor
    · rintro ⟨_, i, here, rfl, rfl⟩
      exact ⟨i, rfl, here⟩
    · rintro ⟨i, rfl, here⟩
      exact ⟨a, i, here, rfl, rfl⟩
  · rw [List.map_map]
    rfl

end Listing

namespace StartName

/-- A text is cut at `::` into pieces, from the left. -/
inductive Cut : List Char → List (List Char) → Prop
  | whole {text} (unbroken : ¬ [':', ':'] <:+: text) : Cut text [text]
  | leftmost {head rest pieces} (first : ¬ [':', ':'] <:+: head ++ [':'])
      (further : Cut rest pieces) : Cut (head ++ ':' :: ':' :: rest) (head :: pieces)

theorem splitScopes_cons {c : Char} {text piece : List Char} {pieces : List (List Char)}
    (apart : ¬ [':', ':'] <+: c :: text) (split : splitScopes text = piece :: pieces) :
    splitScopes (c :: text) = (c :: piece) :: pieces := by
  rw [splitScopes, split]
  rintro rest rfl rfl
  exact apart ⟨rest, rfl⟩

theorem splitScopes_whole {text : List Char} (unbroken : ¬ [':', ':'] <:+: text) :
    splitScopes text = [text] := by
  induction text with
  | nil => rfl
  | cons c rest ih =>
    rw [List.infix_cons_iff, not_or] at unbroken
    exact splitScopes_cons unbroken.1 (ih unbroken.2)

theorem splitScopes_leftmost {head : List Char} (first : ¬ [':', ':'] <:+: head ++ [':'])
    (rest : List Char) :
    splitScopes (head ++ ':' :: ':' :: rest) = head :: splitScopes rest := by
  induction head with
  | nil => rfl
  | cons c head ih =>
    rw [List.cons_append, List.infix_cons_iff, not_or] at first
    -- a `::` in front would be one in front of `head` and a colon, too
    refine splitScopes_cons (fun here => first.1 ?_) (ih first.2)
    cases head with
    | nil => simpa using here
    | cons c' head => simpa using here

theorem Cut.cons {c : Char} {text piece : List Char} {pieces : List (List Char)}
    (apart : ¬ [':', ':'] <+: c :: text) (cut : Cut text (piece :: pieces)) :
    Cut (c :: text) ((c :: piece) :: pieces) := by
  cases cut with
  | whole unbroken =>
    refine .whole ?_
    rw [List.infix_cons_iff, not_or]
    exact ⟨apart, unbroken⟩
  | leftmost first further =>
    refine @Cut.leftmost (c :: piece) _ _ ?_ further
    rw [List.cons_append, List.infix_cons_iff, not_or]
    refine ⟨fun here => apart ?_, first⟩
    cases piece with
    | nil => simpa using here
    | cons c' piece => simpa using here

/-- The pieces of a name are the only ones it can be cut into. -/
theorem cut_iff {text : List Char} {pieces : List (List Char)} :
    Cut text pieces ↔ splitScopes text = pieces := by
  constructor
  · intro cut
    induction cut with
    | whole unbroken => exact splitScopes_whole unbroken
    | leftmost first _ ih => rw [splitScopes_leftmost first, ih]
  · rintro rfl
    fun_induction splitScopes text with
    | case1 => exact .whole (by simp)
    | case2 rest ih => exact @Cut.leftmost [] _ _ (by decide) ih
    | case3 c rest _ empty => exact absurd empty (splitScopes_ne_nil rest)
    | case4 c rest apart piece pieces split ih =>
      rw [split] at ih
      refine .cons ?_ ih
      rintro ⟨tail, same⟩
      cases same
      exact apart tail rfl rfl

/-- Of three colons the first two cut. -/
example : Cut "a:::b::".toList ["a".toList, ":b".toList, "".toList] := cut_iff.mpr rfl

end StartName

/-- `d` is child number `i` of the scope, or of its definition where it has one. -/
def Snapshot.Child (s : Snapshot) (scope : DeclId) (i : Nat) (d : DeclId) : Prop :=
  ∃ body decl, s.definition scope = .ok body ∧ s.decl (body.getD scope) = .ok decl ∧
    decl.children[i]? = some d

/-- The path of names leads from a scope to `d`: piece by piece to the children of that very name at
the given positions, through containers. -/
inductive Snapshot.Trail (s : Snapshot) : List String → DeclId → List Nat → DeclId → Prop
  | last {scope i d decl} (child : s.Child scope i d) (found : s.decl d = .ok decl) :
      Trail s [decl.name] scope [i] d
  | scope {path scope i next decl positions d} (child : s.Child scope i next)
      (found : s.decl next = .ok decl) (container : decl.kind.isContainer = true)
      (further : Trail s path next positions d) :
      Trail s (decl.name :: path) scope (i :: positions) d

/-- The declarations that a name leads to from the translation unit, in depth-first child order. -/
def Snapshot.Matches (s : Snapshot) (name : String) (found : List DeclId) : Prop :=
  ∃ pieces, StartName.Cut name.toList pieces ∧
    Listing (s.Trail (pieces.map .ofList) .root) found

namespace Snapshot

variable {s : Snapshot}

theorem filterDecls_listing {ι : Type} [LT ι] {listed : ι → DeclId → Prop} {ds kept : List DeclId}
    (order : Listing listed ds) (inside : ∀ d ∈ ds, s.HasDecl d) {test : Declaration → Bool}
    (filtered : (ds.filterM fun d => do return test (← s.decl d)) = .ok kept) :
    Listing (fun i d => listed i d ∧ ∃ decl, s.decl d = .ok decl ∧ test decl = true) kept := by
  have answered : ∀ d ∈ ds, ∃ b, (do return test (← s.decl d) : Except Fault Bool) = .ok b := by
    intro d member
    obtain ⟨decl, found⟩ := decl_total (inside d member)
    exact ⟨test decl, by rw [found]; rfl⟩
  refine (order.filterM answered filtered).congr fun i d => ?_
  simp only [bind_eq_ok, pure_eq_ok]

theorem lookup_listing (sound : s.Sound) {scope : DeclId} {name : String} {found : List DeclId}
    (looked : s.lookup scope name = .ok found) :
    Listing (fun i d => s.Child scope i d ∧ ∃ decl, s.decl d = .ok decl ∧ decl.name = name)
      found := by
  simp only [lookup, bind_eq_ok] at looked
  obtain ⟨body, defined, decl, known, filtered⟩ := looked
  have children := Listing.positions decl.children
  refine (filterDecls_listing children (inside_of_child sound known) filtered).congr fun i d => ?_
  simp only [Child, defined, known, Except.ok.injEq, exists_and_left, exists_eq_left', beq_iff_eq]

end Snapshot

namespace StartName

variable {s : Snapshot} (sound : s.Sound)
include sound

/-- A walk along a path finds the ends of its trails. -/
theorem walk_listing {path : List String} (named : path ≠ []) {scope : DeclId}
    {found : List DeclId} (walked : walk s path scope = .ok found) :
    Listing (s.Trail path scope) found := by
  induction path generalizing scope found with
  | nil => exact absurd rfl named
  | cons name rest ih =>
    cases rest with
    | nil =>
      refine (Snapshot.lookup_listing sound walked).single.congr fun positions d => ?_
      constructor
      · rintro ⟨i, rfl, child, decl, known, rfl⟩
        exact .last child known
      · intro trail
        cases trail with
        | last child known => exact ⟨_, rfl, child, _, known, rfl⟩
        | scope _ _ _ further => nomatch further
    | cons next rest =>
      simp only [walk, bind_eq_ok] at walked
      obtain ⟨matching, looked, scopes, filtered, results, mapped, joined⟩ := walked
      cases pure_eq_ok.mp joined
      have children := Snapshot.lookup_listing sound looked
      have inside : ∀ d ∈ matching, s.HasDecl d := by
        intro d member
        obtain ⟨_, _, _, known, _⟩ := (children.mem d).mp member
        exact Snapshot.hasDecl_of_decl known
      have containers := Snapshot.filterDecls_listing children inside filtered
      have further := (mapM_eq_ok.mp mapped).imp fun _ _ walked => ih (by simp) walked
      refine (containers.flatten further).congr fun positions d => ?_
      constructor
      · rintro ⟨i, rest, inner, rfl, ⟨⟨child, decl, known, rfl⟩, decl', known', container⟩, trail⟩
        cases known.symm.trans known'
        exact .scope child known container trail
      · intro trail
        cases trail with
        | scope child known container trail =>
          exact ⟨_, _, _, rfl, ⟨⟨child, _, known, rfl⟩, _, known, container⟩, trail⟩

/-- A name resolves to its matches. -/
theorem resolve_iff (name : String) (found : List DeclId) :
    resolve s name = .ok found ↔ s.Matches name found := by
  have named : segments name ≠ [] := by simp [segments, splitScopes_ne_nil]
  have resolves : ∀ {found}, resolve s name = .ok found → s.Matches name found :=
    fun resolved => ⟨_, cut_iff.mpr rfl, walk_listing sound named resolved⟩
  refine ⟨resolves, fun ⟨pieces, cut, order⟩ => ?_⟩
  obtain ⟨found', resolved, _⟩ := walk_total sound (segments name) sound.hasDecl_root
  cases cut_iff.mp cut
  rw [order.unique (walk_listing sound named resolved)]
  exact resolved

theorem mapM_resolve_iff (names : List String) (found : List (List DeclId)) :
    names.mapM (resolve s) = .ok found ↔ List.Forall₂ s.Matches names found := by
  simp only [mapM_eq_ok, resolve_iff sound]

end StartName

/-- A run in which the given declarations, numbered in order, wait for their whole elements, and
nothing else is known. -/
def Run.seeded (starts : List DeclId) : Run where
  registry := {
    numbering := ⟨starts.length⟩
    nodes := ⟨(starts.zipIdx 1).map fun (c, number) => (.decl c, ⟨number, true, false⟩)⟩
    qualified := []
    phase := .requireComplete
    queue := ⟨starts.map fun c => .entity (.decl c)⟩ }
  files := .empty

namespace Run

theorem keys_seeded (starts : List DeclId) :
    (seeded starts).registry.nodes.keys = starts.map .decl := by
  have firsts := congrArg (List.map Entity.decl) (List.zipIdx_map_fst 1 starts)
  rw [List.map_map] at firsts
  rw [NodeTable.keys, seeded, List.map_map]
  exact firsts

theorem extend_seeded (starts : List DeclId) (c : DeclId) :
    (seeded starts).registry.extend (.decl c) true = (seeded (starts ++ [c])).registry := by
  simp only [Registry.extend, seeded, Registry.count, WorkQueue.pushIf, WorkQueue.push,
    List.zipIdx_append, List.zipIdx_singleton, List.map_append, List.map_cons, List.map_nil,
    List.length_append, List.length_singleton, Bool.true_or, if_true, Nat.add_comm 1]

theorem mention_seeded (starts : List DeclId) (c : DeclId) :
    ((seeded starts).mention ⟨.decl c, true⟩).2 =
      seeded (if c ∈ starts then starts else starts ++ [c]) := by
  have known : Entity.decl c ∈ (seeded starts).registry.nodes.keys ↔ c ∈ starts := by
    rw [keys_seeded]
    exact List.mem_map_of_injective fun _ _ => Entity.decl.inj
  rcases (seeded starts).registry.register_cases (.decl c) true with
    ⟨node, found, _, same⟩ | ⟨node, found, _, stub, _⟩ | ⟨fresh, same⟩
  · rw [if_pos (known.mp (NodeTable.mem_keys_iff.mpr ⟨node, found⟩)), mention_eq, same]
  · -- all that is known is wanted complete already
    obtain ⟨⟨_, _⟩, _, here⟩ := List.mem_map.mp (NodeTable.mem_entries_of_get? found)
    cases here
    cases stub
  · rw [if_neg (mt known.mpr (NodeTable.get?_eq_none_iff.mp fresh)), mention_eq, same,
      extend_seeded]
    rfl

/-- Declarations wanted complete one after the other are known as they are met first. -/
theorem mentionAll_seeded (earlier later : List DeclId) :
    (mentionAll (later.map (⟨.decl ·, true⟩)) (seeded earlier.eraseDups)).2 =
      seeded (earlier ++ later).eraseDups := by
  induction later generalizing earlier with
  | nil => rw [List.append_nil]; rfl
  | cons c later ih =>
    rw [List.map_cons, mentionAll_cons]
    simp only [mention_seeded, ← Registry.eraseDups_concat]
    rw [ih, List.append_assoc, List.singleton_append]

end Run

/-- Every entity that the name leads to has its canonical declaration among `starts`. A name that
leads nowhere is covered as well. -/
def Snapshot.Covers (s : Snapshot) (starts : List DeclId) (name : String) : Prop :=
  ∀ found, s.Matches name found → ∀ d ∈ found, ∀ c, s.canonical d = .ok c → c ∈ starts

namespace Dump

variable {s : Snapshot}

theorem starts_total (sound : s.Sound) {names : List String} (given : names ≠ []) :
    ∃ found starts, List.Forall₂ s.Matches names found ∧
      List.Forall₂ (fun d c => s.canonical d = .ok c) found.flatten starts := by
  obtain ⟨start, resolved, inside⟩ := startDecls_total sound names
  rw [startDecls, if_neg (mt List.isEmpty_iff.mp given), bind_eq_ok] at resolved
  obtain ⟨found, mapped, joined⟩ := resolved
  cases pure_eq_ok.mp joined
  obtain ⟨starts, canonicals⟩ := mapM_total (f := s.canonical) fun d member => by
    obtain ⟨c, canonical, _⟩ := sound.canonical_total (inside d member)
    exact ⟨c, canonical⟩
  have matched := (StartName.mapM_resolve_iff sound names found).mp mapped
  exact ⟨found, starts, matched, mapM_eq_ok.mp canonicals⟩

section Starts

variable (sound : s.Sound) {names : List String} {found : List (List DeclId)}
  {starts : List DeclId} (matched : List.Forall₂ s.Matches names found)
  (canonicals : List.Forall₂ (fun d c => s.canonical d = .ok c) found.flatten starts)
include sound matched canonicals

theorem seed_seeded (given : names ≠ []) : seed s names = .ok (.seeded starts.eraseDups) := by
  have mapped := (StartName.mapM_resolve_iff sound names found).mpr matched
  have resolved : startDecls s names = .ok found.flatten := by
    rw [startDecls, if_neg (mt List.isEmpty_iff.mp given), mapped]
    rfl
  have mentioned : found.flatten.mapM (s.mentionDecl · true) =
      .ok (starts.map (⟨.decl ·, true⟩)) := by
    rw [mapM_eq_ok, List.forall₂_map_right_iff]
    exact canonicals.imp fun _ c canonical => Snapshot.mentionDecl_eq_ok.mpr ⟨c, canonical, rfl⟩
  rw [seed_eq resolved mentioned]
  exact congrArg Except.ok (Run.mentionAll_seeded [] starts)

/-- A name that is given already leads to nothing new. -/
theorem covers_of_mem {name : String} (listed : name ∈ names) : s.Covers starts name := by
  intro matching named d member c canonical
  have mapped := (StartName.mapM_resolve_iff sound names found).mpr matched
  have here : matching ∈ found :=
    (mem_mapM mapped matching).mpr ⟨name, listed, (StartName.resolve_iff sound name _).mpr named⟩
  have among := List.mem_flatten.mpr ⟨matching, here, member⟩
  exact (mem_mapM (mapM_eq_ok.mpr canonicals) c).mpr ⟨d, among, canonical⟩

theorem seed_append (given : names ≠ []) {name : String} (covered : s.Covers starts name) :
    seed s (names ++ [name]) = seed s names := by
  obtain ⟨matchings, more, named, canonicals'⟩ :=
    starts_total sound (List.cons_ne_nil name [])
  obtain ⟨matching, _, here, nothing, rfl⟩ := List.forall₂_cons_left_iff.mp named
  cases nothing
  have all : List.Forall₂ s.Matches (names ++ [name]) (found ++ [matching]) :=
    List.rel_append matched named
  have canonicals'' : List.Forall₂ (fun d c => s.canonical d = .ok c)
      (found ++ [matching]).flatten (starts ++ more) := by
    rw [List.flatten_append]
    exact List.rel_append canonicals canonicals'
  have old : ∀ c ∈ more, c ∈ starts := by
    intro c member
    obtain ⟨d, among, canonical⟩ := (mem_mapM (mapM_eq_ok.mpr canonicals') c).mp member
    exact covered matching here d (by simpa using among) c canonical
  have none : more.removeAll starts = [] := by
    simpa [List.removeAll, List.filter_eq_nil_iff] using old
  rw [seed_seeded sound all canonicals'' (by simp), seed_seeded sound matched canonicals given,
    List.eraseDups_append, none, List.eraseDups_nil, List.append_nil]

end Starts

theorem dump_of_seed {names names' : List String} (same : seed s names = seed s names')
    (mode : QualifierMode) : dump s ⟨names, mode⟩ = dump s ⟨names', mode⟩ := by
  simp only [dump_unfold, same]

theorem dumpInto_of_seed {ε σ : Type} (out : Writer ε σ) {names names' : List String}
    (same : seed s names = seed s names') (mode : QualifierMode) :
    dumpInto out s ⟨names, mode⟩ = dumpInto out s ⟨names', mode⟩ := by
  funext start
  simp only [dumpInto, Streaming.writeDocument, same]

end Dump

/-- A dump starts from the canonical declarations of all that its names match, each once and in the
order of the matches. A further name that leads to nothing else leaves the dump as it is. -/
theorem Dump.seed_matches {d : Document} (accepted : d.validate = .ok ()) {s : Snapshot}
    (indexed : Snapshot.ofDocument d = .ok s) {names : List String} (given : names ≠ []) :
    ∃ found starts, List.Forall₂ s.Matches names found ∧
      List.Forall₂ (fun d c => s.canonical d = .ok c) found.flatten starts ∧
      Dump.seed s names = .ok (.seeded starts.eraseDups) ∧
      ∀ (mode : QualifierMode) (name : String), s.Covers starts name →
        (∃ report, dump s ⟨names, mode⟩ = .ok report ∧
          dump s ⟨names ++ [name], mode⟩ = .ok report) ∧
        ∀ {ε σ : Type} (out : Writer ε σ),
          dumpInto out s ⟨names ++ [name], mode⟩ = dumpInto out s ⟨names, mode⟩ := by
  obtain ⟨s', indexed', _, sound⟩ := Snapshot.ofDocument_sound (d.validate_ok_iff.mp accepted)
  cases indexed.symm.trans indexed'
  obtain ⟨found, starts, matched, canonicals⟩ := Dump.starts_total sound given
  have seeded := Dump.seed_seeded sound matched canonicals given
  refine ⟨found, starts, matched, canonicals, seeded, fun mode name covered => ?_⟩
  have same := Dump.seed_append sound matched canonicals given covered
  obtain ⟨report, ⟨course⟩⟩ := Dump.course_total sound ⟨names, mode⟩
  have dumped := course.dumped sound
  exact ⟨⟨report, dumped, (Dump.dump_of_seed same mode).trans dumped⟩,
    fun out => Dump.dumpInto_of_seed out same mode⟩

theorem redeclared_seeded : Document.redeclared.validate = .ok () ∧
    Snapshot.ofDocument .redeclared = .ok .redeclared ∧ ["S::a", "S"] ≠ [] ∧
    ∃ found starts, List.Forall₂ Snapshot.redeclared.Matches ["S::a", "S"] found ∧
      List.Forall₂ (fun d c => Snapshot.redeclared.canonical d = .ok c) found.flatten starts ∧
      Dump.seed .redeclared ["S::a", "S"] = .ok (.seeded starts.eraseDups) ∧
      Snapshot.redeclared.Covers starts "S" ∧
      ∀ mode, ∃ report, dump .redeclared ⟨["S::a", "S"], mode⟩ = .ok report ∧
        dump .redeclared ⟨["S::a", "S", "S"], mode⟩ = .ok report := by
  have accepted : Document.redeclared.validate = .ok () := rfl
  have indexed : Snapshot.ofDocument .redeclared = .ok .redeclared := rfl
  have given : ["S::a", "S"] ≠ [] := by decide
  obtain ⟨s, indexed', _, sound⟩ :=
    Snapshot.ofDocument_sound ((Document.validate_ok_iff _).mp accepted)
  cases indexed.symm.trans indexed'
  obtain ⟨found, starts, matched, canonicals, seeded, same⟩ :=
    Dump.seed_matches accepted indexed given
  have covered : Snapshot.redeclared.Covers starts "S" :=
    Dump.covers_of_mem sound matched canonicals (by simp)
  exact ⟨accepted, indexed, given, found, starts, matched, canonicals, seeded, covered,
    fun mode => (same mode "S" covered).1⟩

/-- Both declarations of the record lead to its one field; the record itself comes second. -/
example : Dump.seed .redeclared ["S::a", "S"] = .ok (.seeded [⟨3⟩, ⟨1⟩]) := rfl

end AstXml
