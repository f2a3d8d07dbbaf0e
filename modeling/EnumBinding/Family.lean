/-!
# Enum families

An enum and the prefix that its members share. The prefix is the enum's own name, but for a few enums
whose members were named before it, and a configuration may set another.
-/

namespace EnumBinding

structure Family where
  name : String
  memberPrefix : Option String := none
deriving DecidableEq, Repr

/-- The enums whose members have a prefix other than the enum's name. -/
def prefixRemap : List (String × String) :=
  [("heif_error_code", "heif_error"),
   ("heif_suberror_code", "heif_suberror"),
   ("heif_compression_format", "heif_compression"),
   ("heif_chroma_downsampling_algorithm", "heif_chroma_downsampling"),
   ("heif_chroma_upsampling_algorithm", "heif_chroma_upsampling")]

def remappedPrefix (name : String) : String := (prefixRemap.lookup name).getD name

def Family.effectivePrefix (family : Family) : String :=
  family.memberPrefix.getD (remappedPrefix family.name)

def defaultEnums : List String :=
  ["heif_error_code",
   "heif_suberror_code",
   "heif_compression_format",
   "heif_chroma",
   "heif_colorspace",
   "heif_channel",
   "heif_progress_step",
   "heif_chroma_downsampling_algorithm",
   "heif_chroma_upsampling_algorithm"]

def defaultFamilies : List Family := defaultEnums.map fun name => { name }

end EnumBinding
