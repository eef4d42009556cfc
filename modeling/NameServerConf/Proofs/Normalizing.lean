import NameServerConf.Proofs.Checks
import NameServerConf.Proofs.RoundTrip

/-!
# Normalizing a file

A file is **normalized** by putting what it says back into it.  Reading sees to all conditions on a
configuration but the spellings of its texts, so a closed file says the same after that if its texts
can be written as they are to be: `Config.ofNodes_renderFile_ofNodes`.

Not every text can.  A string that ends with a protected quotation mark loses the mark when it is read,
and what is left of it, written between quotation marks, has no end
(`Config.ofNodes_renderFile_ofNodes_ne`).
-/

namespace NameServerConf

namespace Config

open Node Spelling

/-- **Normalizing keeps what a file says**, for both places where statements are put, if the file is
    closed and the texts that it says can be written. -/
theorem ofNodes_renderFile_ofNodes {t : Text} (ht : t.isClosed = true) (p : Placement)
    (hsound : AllSound (ofNodes .keep (parse t)).value.spellings) :
    ofNodes .keep (parse (renderFile ((ofNodes .keep (parse t)).value.apply p (parse t)).value)) =
      pure (ofNodes .keep (parse t)).value := by
  have hread := addAll_renderFile ((checked_ofNodes ht).wellFormed hsound) p ht
  rw [ofNodes, hread]
  rfl

/-- A zone with an option that the library does not know, and a comment. -/
theorem ofNodes_renderFile_ofNodes_zone :
    ofNodes .keep (parse (renderFile ((ofNodes .keep (parse
        "zone z \x7b type hint; x 1; \x7d; # z\n")).value.apply .append (parse
        "zone z \x7b type hint; x 1; \x7d; # z\n")).value)) =
      pure (ofNodes .keep (parse "zone z \x7b type hint; x 1; \x7d; # z\n")).value :=
  ofNodes_renderFile_ofNodes (by cbv) .append (of_decide_eq_true (by cbv))

/-- The file of the first zone ends with a protected quotation mark. -/
def twoZones : Text := "zone \"a\" \x7b file \"x\\\"\"; \x7d;\nzone \"b\" \x7b \x7d;\n"

/-- The file of the first zone takes in the second zone. -/
lemma length_zones_renderFile_twoZones (p : Placement) :
    (ofNodes .keep (parse (renderFile ((ofNodes .keep (parse twoZones)).value.apply p
      (parse twoZones)).value))).value.zones.length = 1 := by
  cases p with
  | append => cbv
  | inPlace => cbv

/-- Normalizing a closed file may change what it says, wherever statements are put. -/
theorem ofNodes_renderFile_ofNodes_ne :
    twoZones.isClosed = true ∧ ∀ p : Placement,
      (ofNodes .keep (parse (renderFile ((ofNodes .keep (parse twoZones)).value.apply p
        (parse twoZones)).value))).value ≠ (ofNodes .keep (parse twoZones)).value := by
  refine ⟨by cbv, fun p h => ?_⟩
  have hafter := length_zones_renderFile_twoZones p
  have hbefore : (ofNodes .keep (parse twoZones)).value.zones.length = 2 := by cbv
  rw [h, hbefore] at hafter
  cases hafter

end Config

end NameServerConf
