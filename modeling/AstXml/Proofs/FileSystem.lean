import AstXml.FileSystem
import AstXml.Proofs.Streaming

/-!
What a run relies on in the files of a system, and a directory as a system for which it holds.
-/
namespace AstXml

namespace FileSystem

variable {σ : Type} [FileSystem σ]

/-- At most `file` has changed: the others hold what they held, and the paths that led to a file
still lead there. -/
structure Touched (file : File σ) (before after : σ) : Prop where
  others : ∀ other ≠ file, contents? other after = contents? other before
  paths : ∀ path other, find? path before = some other → find? path after = some other

theorem Touched.refl (file : File σ) (state : σ) : Touched file state state :=
  ⟨fun _ _ => rfl, fun _ _ found => found⟩

theorem Touched.trans {file : File σ} {a b c : σ} (first : Touched file a b)
    (second : Touched file b c) : Touched file a c where
  others other differs := (second.others other differs).trans (first.others other differs)
  paths path other found := second.paths path other (first.paths path other found)

end FileSystem

open FileSystem in
/-- Reading gives what a file holds. A file that cannot be created leaves everything as it is; one
that can be is found under its path, and creating it and writing to it touches no other. Once all
that was written to it has been granted and flushed, it holds just that. -/
class LawfulFileSystem (σ : Type) [FileSystem σ] : Prop where
  reads : ∀ {path : String} {state : σ} {bytes : ByteArray}, readBytes path state = some bytes →
    ∃ file, find? path state = some file ∧ contents? file state = some bytes
  uncreated : ∀ {path : String} {state after : σ}, create path state = (none, after) →
    after = state
  created : ∀ {path : String} {state after : σ} {file : File σ},
    create path state = (some file, after) → Touched file state after ∧ find? path after = some file
  wrote : ∀ (file : File σ) (request : Writer.Request) (state : σ),
    Touched file state ((writer file).answer request state).2
  flushed : ∀ {path : String} {state start last : σ} {file : File σ} {pieces : List String},
    create path state = (some file, start) →
    (writer file).serve (pieces.map .text ++ [.flush]) start = (none, last) →
    contents? file last = some (String.join pieces).toUTF8

namespace FileSystem

variable {σ : Type} [FileSystem σ]

/-- `after` is `before` with a file under `path`, new or not, that holds `bytes`. All paths that
lead to it have it read as that, if it can be read. -/
structure Replaced (before : σ) (path : String) (file : File σ) (bytes : ByteArray) (after : σ) :
    Prop where
  found : find? path after = some file
  held : contents? file after = some bytes
  touched : Touched file before after
  read : ∀ path' bytes', find? path' after = some file → readBytes path' after = some bytes' →
    bytes' = bytes

variable [LawfulFileSystem σ]

theorem serve_touched (file : File σ) (requests : List Writer.Request) (state : σ) :
    Touched file state ((writer file).serve requests state).2 := by
  induction requests generalizing state with
  | nil => exact .refl file state
  | cons request rest ih =>
    have first := LawfulFileSystem.wrote file request state
    rw [Writer.serve]
    cases answered : (writer file).answer request state with
    | mk refused mid =>
      rw [answered] at first
      cases refused with
      | none => exact first.trans (ih mid)
      | some why => exact first

theorem replaced_of_served {path : String} {state start last : σ} {file : File σ}
    {pieces : List String} (created : create path state = (some file, start))
    (served : (writer file).serve (pieces.map .text ++ [.flush]) start = (none, last)) :
    Replaced state path file (String.join pieces).toUTF8 last := by
  obtain ⟨touched, here⟩ := LawfulFileSystem.created created
  have written := serve_touched file (pieces.map .text ++ [.flush]) start
  rw [served] at written
  have held := LawfulFileSystem.flushed created served
  refine ⟨written.paths path file here, held, touched.trans written, ?_⟩
  intro path' bytes' found read
  obtain ⟨file', found', held'⟩ := LawfulFileSystem.reads read
  cases found.symm.trans found'
  exact Option.some.inj (held'.symm.trans held)

end FileSystem

namespace Directory

variable (d : Directory) (name : String)

theorem get?_overwrite (bytes : ByteArray) (other : String) :
    get? ⟨d.files.map fun file => if file.1 = name then (name, bytes) else file⟩ other =
      if other = name then (d.get? name).map fun _ => bytes else d.get? other := by
  obtain ⟨files⟩ := d
  simp only [get?]
  induction files with
  | nil => simp
  | cons file rest ih =>
    obtain ⟨here, old⟩ := file
    by_cases same : here = name <;> by_cases found : here = other <;> grind

theorem get?_put (bytes : ByteArray) (other : String) :
    (d.put name bytes).get? other = if other = name then some bytes else d.get? other := by
  unfold put
  split
  · rename_i known
    have held : (d.get? name).isSome := by
      simpa [get?, List.find?_isSome] using known
    obtain ⟨old, found⟩ := Option.isSome_iff_exists.mp held
    rw [get?_overwrite, found, Option.map_some]
  · rename_i absent
    have missing : d.files.find? (·.1 = name) = none :=
      List.find?_eq_none.mpr fun file listed here =>
        absent (List.any_eq_true.mpr ⟨file, listed, here⟩)
    by_cases here : other = name
    · subst here
      simp [get?, missing]
    · simp [get?, here, Ne.symm here]

theorem put_touches (bytes : ByteArray) :
    FileSystem.Touched (σ := Directory) name d (d.put name bytes) where
  others other differs := by
    change (d.put name bytes).get? other = d.get? other
    rw [get?_put, if_neg differs]
  paths path other found := by
    change (fileName? path).filter (fun name' => ((d.put name bytes).get? name').isSome) =
      some other
    have before : (fileName? path).filter (fun name' => (d.get? name').isSome) = some other := found
    rw [Option.filter_eq_some_iff] at before ⊢
    refine ⟨before.1, ?_⟩
    rw [get?_put]
    split
    · rfl
    · exact before.2

/-- Writing to a file of a directory puts the texts behind each other. -/
theorem serve_writer (pieces : List String) (d : Directory) (name : String) {bytes : ByteArray}
    (held : d.get? name = some bytes) : ∃ last,
    (FileSystem.writer (σ := Directory) name).serve (pieces.map .text ++ [.flush]) d =
        (none, last) ∧
      last.get? name = some (bytes ++ (String.join pieces).toUTF8) := by
  induction pieces generalizing d bytes with
  | nil => exact ⟨d, rfl, by simpa using held⟩
  | cons piece rest ih =>
    have next : (d.append name piece).get? name = some (bytes ++ piece.toUTF8) := by
      rw [append, get?_put, if_pos rfl, held, Option.getD_some]
    obtain ⟨last, served, holds⟩ := ih (d.append name piece) next
    refine ⟨last, served, holds.trans ?_⟩
    simp [ByteArray.append_assoc]

instance : LawfulFileSystem Directory where
  reads := by
    intro path d bytes read
    obtain ⟨name, named, held⟩ := Option.bind_eq_some_iff.mp read
    exact ⟨name, Option.filter_eq_some_iff.mpr ⟨named, by rw [held]; rfl⟩, held⟩
  uncreated := by
    intro path d after refused
    simp only [FileSystem.create] at refused
    split at refused <;> cases refused
    rfl
  created := by
    intro path d after name created
    simp only [FileSystem.create] at created
    split at created
    · cases created
    · rename_i named
      cases created
      refine ⟨put_touches d _ .empty, Option.filter_eq_some_iff.mpr ⟨named, ?_⟩⟩
      rw [get?_put, if_pos rfl]
      rfl
  wrote := by
    rintro name (piece | _) d
    · exact put_touches d name _
    · exact .refl name d
  flushed := by
    intro path d start last name pieces created served
    simp only [FileSystem.create] at created
    split at created
    · cases created
    · cases created
      have empty : (d.put name .empty).get? name = some .empty := by rw [get?_put, if_pos rfl]
      obtain ⟨last', served', held⟩ := serve_writer pieces _ name empty
      cases served.symm.trans served'
      rwa [ByteArray.empty_append] at held

end Directory

end AstXml
