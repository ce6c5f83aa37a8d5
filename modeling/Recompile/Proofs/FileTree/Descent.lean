import Recompile.Proofs.FileTree.Listing

/-!
# Files that are found by going down

A path goes down from a base if it goes on from there by names alone (`Path.GoesDown`). Where
no place holds a link, such a path is followed to the place that the names spell below the
directory of the base (`FileTree.exists_leadsTo`). So the base and the place of the file
determine the path (`FileTree.LeadsTo.clean_eq`), even if the base itself goes up in between.
-/

set_option autoImplicit false

namespace Recompile

namespace Path

variable {base dir target p above : Path} {names : List Name}

/-- A path goes on from a base by names. -/
structure GoesDown (base : Path) (names : List Name) (p : Path) : Prop where
  absolute : p.isAbsolute = base.isAbsolute
  named : p.named.map Component.chars = base.named.map Component.chars ++ names
  isName : ∀ n ∈ names, FileTree.IsName n

/-- A target without `..` has names only for components. -/
theorem isName_of_mem_named (hup : .up ∉ target.named) :
    ∀ n ∈ target.named.map Component.chars, FileTree.IsName n := by
  intro n hn
  obtain ⟨c, hc, rfl⟩ := List.mem_map.mp hn
  exact FileTree.isName_of_plain (plain_of_mem_named hc) fun heq => hup (heq ▸ hc)

namespace GoesDown

/-- A path goes down to itself by no names. -/
theorem refl (base : Path) : base.GoesDown [] base :=
  ⟨rfl, (List.append_nil _).symm, fun _ hn => absurd hn List.not_mem_nil⟩

/-- The clean spelling of a path goes down by the same names. -/
theorem clean (h : base.GoesDown names p) : base.GoesDown names p.clean := by
  refine ⟨?_, ?_, h.isName⟩
  · rw [isAbsolute_clean, h.absolute]
  · rw [named_clean, h.named]

/-- An absolute target without `..` steps goes down from the root directory. -/
theorem of_isAbsolute (htarget : target.isAbsolute = true) (hup : .up ∉ target.named) :
    GoesDown ⟨['/']⟩ (target.named.map Component.chars) target :=
  ⟨htarget, rfl, isName_of_mem_named hup⟩

/-- A relative target without `..` steps goes further down. -/
theorem join (h : base.GoesDown names dir) (htarget : target.isAbsolute = false)
    (hup : .up ∉ target.named) :
    base.GoesDown (names ++ target.named.map Component.chars) (dir.join target) := by
  constructor
  case absolute => rw [isAbsolute_join_of_relative htarget, h.absolute]
  case named => rw [named_join_of_relative htarget, List.map_append, h.named, List.append_assoc]
  case isName =>
    intro n hn
    rcases List.mem_append.mp hn with hn | hn
    · exact h.isName n hn
    · exact isName_of_mem_named hup n hn

/-- The parent of a path that goes down from a base does so as well, if that is not the path
itself. -/
theorem parent? (h : base.GoesDown names p) (hne : names ≠ []) (habove : p.parent? = some above) :
    ∃ fewer, base.GoesDown fewer above := by
  obtain ⟨hinitial, hcount⟩ := named_of_parent? habove
  rw [h.named] at hinitial hcount
  have hlength : (base.named.map Component.chars).length ≤
      (above.named.map Component.chars).length := by
    have hpos := List.length_pos_of_ne_nil hne
    rw [List.length_append] at hcount
    omega
  obtain ⟨fewer, hfewer⟩ :=
    List.prefix_of_prefix_length_le (List.prefix_append _ names) hinitial hlength
  refine ⟨fewer, ?_, hfewer.symm, ?_⟩
  · rw [(steps_of_parent? habove).1, h.absolute]
  · rw [← hfewer, List.prefix_append_right_inj] at hinitial
    exact fun n hn => h.isName n (hinitial.subset hn)

end GoesDown

end Path

namespace FileTree

variable {t : FileTree} {last : Bool} {links : Nat} {dir d loc : Location} {n : Name}
  {steps names : List Name} {base p q target : Path}

/-- The places that hold files. -/
def files (t : FileTree) : List Location :=
  t.held.filter fun loc => (t.entry? loc).any Entry.isFile

/-- A place is counted if it holds a file, be it one that may be opened or not. -/
theorem mem_files :
    loc ∈ t.files ↔ ∃ entry, t.entry? loc = some entry ∧ entry.isFile = true := by
  unfold files
  rw [List.mem_filter, mem_held]
  cases t.entry? loc with
  | none => simp
  | some entry => simp

/-- Without links, following steps is going on with them once. -/
theorem LinkFree.follow_eq (h : t.LinkFree) (last : Bool) (links : Nat) (dir : Location)
    (steps : List Name) : t.follow last links dir steps = t.advance last dir steps := by
  apply follow_of_advance
  intro d target rest hlink
  obtain ⟨⟨n, hentry, -⟩, -⟩ := link_of_advance hlink
  exact h _ _ hentry

/-- Names lead to the place that they spell below a directory. -/
theorem location_of_names (hnames : ∀ m ∈ names, IsName m)
    (h : t.advance true dir names = .before d n) : n :: d = names.reverse ++ dir := by
  have hway := t.way_advance true dir names
  generalize t.advance true dir names = halt at h hway
  induction hway with
  | nil | long | link | missing | blocked => cases h
  | dot => exact absurd rfl (hnames _ List.mem_cons_self).ne_dot
  | up => exact absurd rfl (hnames _ List.mem_cons_self).ne_up
  | stops =>
    cases h
    rfl
  | down _ _ _ _ _ ih =>
    rw [ih (fun k hk => hnames k (List.mem_cons_of_mem _ hk)) h, List.reverse_cons,
      List.append_assoc]
    rfl

/-- A path goes down from a base to a place. -/
def LeadsTo (t : FileTree) (base : Path) (loc : Location) (p : Path) : Prop :=
  ∃ names dir, base.GoesDown names p ∧
    t.advance true (origin t.workingDir base) (base.named.map Path.Component.chars ++ [['.']]) =
      .inside dir ∧
    loc = names.reverse ++ dir

/-- A file that is found by going down from a base stands at the place to which its path leads
from there. -/
theorem exists_leadsTo (hlinks : t.LinkFree) (hdown : base.GoesDown names p) (hne : names ≠ [])
    (hclean : p.clean = p) (hfile : t.isFile p = true) :
    ∃ loc ∈ t.files, t.LeadsTo base loc p := by
  obtain ⟨-, d, n, entry, hfollow, hentry, hkind⟩ := isFile_eq_true_iff.mp hfile
  have hsteps : p.lookupSteps = base.named.map Path.Component.chars ++ names := by
    rw [← hdown.named, ← Path.lookupSteps_clean (named_ne_nil_of_follow hfollow), hclean]
  have horigin : origin t.workingDir p = origin t.workingDir base := by
    unfold origin
    rw [hdown.absolute]
  rw [hlinks.follow_eq, hsteps, horigin] at hfollow
  obtain ⟨dir, hinside, hbefore⟩ := exists_inside_of_append hne hfollow
  exact ⟨n :: d, mem_files.mpr ⟨entry, hentry, hkind⟩, names, dir, hdown, hinside,
    location_of_names hdown.isName hbefore⟩

/-- A base and a place belong to one path. -/
theorem LeadsTo.clean_eq (h : t.LeadsTo base loc p) (h' : t.LeadsTo base loc q) :
    p.clean = q.clean := by
  obtain ⟨names, dir, hdown, hinside, rfl⟩ := h
  obtain ⟨names', dir', hdown', hinside', hloc⟩ := h'
  rw [hinside] at hinside'
  cases hinside'
  have hnames : names = names' := List.reverse_injective (List.append_cancel_right hloc)
  subst hnames
  apply Path.clean_eq_of_named
  · rw [hdown.absolute, hdown'.absolute]
  · exact Path.named_eq_of_map_chars (hdown.named.trans hdown'.named.symm)

/-- A relative target by which a file is found has a component. -/
theorem named_ne_nil_of_isFile_join (htarget : target.isAbsolute = false)
    (h : t.isFile (base.join target) = true) : target.named ≠ [] := by
  by_cases hbase : base.chars = []
  · rw [Path.join_of_chars_eq_nil hbase] at h
    exact named_ne_nil_of_isFile h
  · exact (isFile_extend_of_isFile_join hbase htarget h).1

end FileTree

end Recompile
