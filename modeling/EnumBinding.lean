import EnumBinding.Main
import EnumBinding.Proofs.Generation.Frame
import EnumBinding.Proofs.Generation.Unambiguous
import EnumBinding.Proofs.Header.KeptLine
import EnumBinding.Proofs.Header.RoundTrip
import EnumBinding.Proofs.Header.BlockText
import EnumBinding.Proofs.Generation.Locality
import EnumBinding.Proofs.Generation.Stages
import EnumBinding.Proofs.Files.Rewriting
import EnumBinding.Proofs.Generation.Rerun
import EnumBinding.Proofs.CommandLine.Serving
import EnumBinding.Proofs.Header.BlockPlace
import EnumBinding.Proofs.Header.Anchors
import EnumBinding.Proofs.Config.Given
import EnumBinding.Proofs.Name.Collisions
import EnumBinding.Proofs.Name.Exported
import EnumBinding.Proofs.Name.Letters
import EnumBinding.Proofs.Name.FamilyPrefix
import EnumBinding.Proofs.Header.VersionPlace
import EnumBinding.Proofs.Header.Offsets
import EnumBinding.Proofs.Header.Attribution
import EnumBinding.Proofs.Header.GluedName
import EnumBinding.Proofs.Header.Formula
import EnumBinding.Proofs.Header.VersionValue
import EnumBinding.Proofs.Header.VersionBalance
import EnumBinding.Proofs.Header.Collapse
import EnumBinding.Proofs.Declaration.Alignment
