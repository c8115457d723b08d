import GenericFs.Disktool.Accounting
import GenericFs.Disktool.Agreement
import GenericFs.Disktool.Allocation
import GenericFs.Disktool.Appending
import GenericFs.Disktool.Archives
import GenericFs.Disktool.Blocks
import GenericFs.Disktool.CreateFile
import GenericFs.Disktool.Creating
import GenericFs.Disktool.Directory
import GenericFs.Disktool.Displays
import GenericFs.Disktool.Format
import GenericFs.Disktool.Freemap
import GenericFs.Disktool.GetDirectory
import GenericFs.Disktool.Histories
import GenericFs.Disktool.Image
import GenericFs.Disktool.Initialize
import GenericFs.Disktool.Menu
import GenericFs.Disktool.Partition
import GenericFs.Disktool.Readback
import GenericFs.Disktool.Refusal
import GenericFs.Disktool.Regions
import GenericFs.Disktool.Sessions
import GenericFs.Disktool.Showing
import GenericFs.Disktool.Sizing
import GenericFs.Disktool.Terminal
import GenericFs.Disktool.Turns
import GenericFs.Disktool.Verify
import GenericFs.Driver.Dir
import GenericFs.Driver.Inode
import GenericFs.Driver.Kernel
import GenericFs.Driver.Listing
import GenericFs.Driver.Mounting
import GenericFs.Driver.Pages
import GenericFs.Driver.Statfs
import GenericFs.Driver.Usage
import GenericFs.Driver.Walking
import GenericFs.Fat.Accepted
import GenericFs.Fat.Answering
import GenericFs.Fat.Append
import GenericFs.Fat.Backing
import GenericFs.Fat.Check
import GenericFs.Fat.Chunking
import GenericFs.Fat.Client
import GenericFs.Fat.Consistent
import GenericFs.Fat.Crash
import GenericFs.Fat.Creation
import GenericFs.Fat.Device
import GenericFs.Fat.DirectoryScan
import GenericFs.Fat.FileSystem
import GenericFs.Fat.Files
import GenericFs.Fat.Filling
import GenericFs.Fat.Forgetting
import GenericFs.Fat.Growth
import GenericFs.Fat.Intact
import GenericFs.Fat.Layout
import GenericFs.Fat.Loaded
import GenericFs.Fat.Nameless
import GenericFs.Fat.Names
import GenericFs.Fat.Operations
import GenericFs.Fat.Overlong
import GenericFs.Fat.Receiving
import GenericFs.Fat.Refinement
import GenericFs.Fat.Remount
import GenericFs.Fat.Runs
import GenericFs.Fat.Steady
import GenericFs.Fat.Transfer
import GenericFs.Fat.Undoing
import GenericFs.Fat.Unformatted
import GenericFs.Fat.Volume
import GenericFs.Fat.Writers
import GenericFs.Library.Agreeing
import GenericFs.Library.BitCount
import GenericFs.Library.Bitmap
import GenericFs.Library.Blocks
import GenericFs.Library.Cells
import GenericFs.Library.Chain
import GenericFs.Library.Counted
import GenericFs.Library.Ensuring
import GenericFs.Library.Machine
import GenericFs.Library.Refining
import GenericFs.Library.Returning
import GenericFs.Library.Segments
import GenericFs.Library.Store
import GenericFs.Library.Walks
import GenericFs.Shell.Commands
import GenericFs.Shell.Copying
import GenericFs.Shell.Damage
import GenericFs.Shell.Desk
import GenericFs.Shell.Program
import GenericFs.Shell.RoundTrip
import GenericFs.Shell.Sessions
import GenericFs.Shell.Steady
import GenericFs.Shell.Typing
import GenericFs.Spica.Cutting
import GenericFs.Spica.Extents
import GenericFs.Spica.Memory
import GenericFs.Spica.Padding
import GenericFs.Spica.Results
import GenericFs.Spica.Runs
import GenericFs.Spica.Scanning
import GenericFs.Spica.Strings
import GenericFs.Spica.Texts
import GenericFs.Spica.Typing
import GenericFs.Spica.Values
import GenericFs.Spica.Workspace
